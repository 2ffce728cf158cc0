import Loom.Double
import Loom.Text.Property
import Loom.Token

/-!
The lexemes of a script, as its grammar sees them.

They are coarser than tokens: a word keeps the name that its escapes spell, a template part keeps
its cooked value, and a closing angle bracket stands alone until the grammar joins it with what
follows.
-/

namespace Loom.Script

inductive Lexeme where
  | word (name : String) (escaped : Bool)
  | privateName (name : String)
  | mark (text : String)
  | number (value : Double)
  | bigint
  | string (value : String)
  /-- A part of a template, from a backquote or a closing brace to the next backquote or
  substitution. -/
  | template (raw : String) (cooked : Option String) (last : Bool)
  | regex (pattern flags : String)
  | text
  | unreadable
  | stop
deriving DecidableEq, Repr, Inhabited

/-- A lexeme in its place, with the text that starts with it and the text after it. -/
structure Lexed where
  lexeme : Lexeme
  range : Range
  /-- Whether a line break stands between the lexeme before and this one. -/
  newline : Bool
  text : Text
  rest : Text
deriving Inhabited

def openBrace : String := "\x7b"

def closeBrace : String := "\x7d"

namespace Lexeme

def reserved : List String :=
  ["break", "case", "catch", "class", "const", "continue", "debugger", "default", "delete", "do",
    "else", "enum", "export", "extends", "false", "finally", "for", "function", "if", "import",
    "in", "instanceof", "new", "null", "return", "super", "switch", "this", "throw", "true", "try",
    "typeof", "var", "void", "while", "with"]

/-- Words that are names, and mean more than that in some places. -/
def contextual : List String :=
  ["abstract", "accessor", "any", "as", "assert", "asserts", "async", "await", "bigint", "boolean",
    "constructor", "declare", "defer", "from", "get", "global", "implements", "infer", "interface",
    "intrinsic", "is", "keyof", "let", "meta", "module", "namespace", "never", "number", "object",
    "of", "out",
    "override", "package", "private", "protected", "public", "readonly", "require", "satisfies",
    "set",
    "source", "static", "string", "symbol", "target", "type", "undefined", "unique", "unknown",
    "using", "yield"]

def isKeyword (name : String) : Bool := reserved.contains name || contextual.contains name

def isMark (l : Lexeme) (text : String) : Bool :=
  match l with
  | .mark t => t == text
  | _ => false

/-- Whether the lexeme is the given word, written with escapes or without. -/
def isWord (l : Lexeme) (name : String) : Bool :=
  match l with
  | .word n _ => n == name
  | _ => false

def isAnyMark (l : Lexeme) (texts : List String) : Bool :=
  match l with
  | .mark t => texts.contains t
  | _ => false

def isAnyWord (l : Lexeme) (names : List String) : Bool :=
  match l with
  | .word n _ => names.contains n
  | _ => false

/-- Whether the lexeme is a word with escapes that has a meaning of its own somewhere. -/
def isEscapedKeyword : Lexeme → Bool
  | .word name true => isKeyword name
  | _ => false

def isPlainName : Lexeme → Bool
  | .word name _ => !isKeyword name
  | _ => false

/-- Whether the lexeme can name a property: any word. -/
def isName : Lexeme → Bool
  | .word .. => true
  | _ => false

def isBinding : Lexeme → Bool
  | .word name _ => !reserved.contains name
  | _ => false

def isPrivateName : Lexeme → Bool
  | .privateName _ => true
  | _ => false

def isString : Lexeme → Bool
  | .string _ => true
  | _ => false

def isTemplate : Lexeme → Bool
  | .template .. => true
  | _ => false

/-- Strings, numbers, and the words that are values. -/
def isLiteral : Lexeme → Bool
  | .string _ | .number _ | .bigint | .regex .. => true
  | .word name _ => ["null", "true", "false"].contains name
  | _ => false

/-- Whether the lexeme can be the name of a member written without brackets. -/
def isPropertyName : Lexeme → Bool
  | .word .. | .string _ | .number _ | .bigint => true
  | _ => false

end Lexeme

def isLineBreak (c : Char) : Bool := c = '\n' || c = '\r' || c = '\u2028' || c = '\u2029'

def isSeparator (c : Char) : Bool :=
  c = '\t' || c = '\x0b' || c = '\x0c' || c = '\u0085' || c = '\u200b' || c = '\ufeff'
    || Text.Property.isSpaceSeparator c

def isNameStart (c : Char) : Bool := c = '$' || c = '_' || Text.Property.isIdStart c

def isNamePart (c : Char) : Bool :=
  c = '$' || c = '\u200c' || c = '\u200d' || Text.Property.isIdContinue c

end Loom.Script
