import Loom.Host.Error
import Loom.Text.Property
import Loom.Token

/-!
The tokens of a script text.

Regular expressions and template parts cannot be told from other tokens without a grammar. The
caller, who has parsed the text, gives their ranges as *atoms*, and each atom becomes one token.
Blanks and comments between tokens are skipped.

Scanning goes from one step to the next: `ahead` looks at the text and says how many bytes to skip
or to take as a token. Where these do not end between two characters, the text cannot be cut and the
scan fails.
-/

namespace Loom

/-- A range that is one token of the given kind, whatever is inside. -/
structure Atom where
  range : Range
  kind : TokenKind
deriving DecidableEq, Repr, Inhabited

namespace Scanner

def keywords : List Text :=
  ["break", "case", "catch", "class", "const", "continue", "debugger", "default", "delete",
    "do", "else", "export", "extends", "finally", "for", "function", "if", "import", "in",
    "instanceof", "new", "return", "super", "switch", "this", "throw", "try", "typeof", "var",
    "void", "while", "with", "yield"].map String.toList

/-- Longest first, so that the first one that fits is the longest. -/
def punctuators : List Text :=
  [">>>=", "...", "===", "!==", "**=", "<<=", ">>=", ">>>", "&&=", "||=", "??=", "=>", "==",
    "!=", "<=", ">=", "&&", "||", "??", "?.", "++", "--", "+=", "-=", "*=", "/=", "%=", "&=",
    "|=", "^=", "**", "<<", ">>", "\x7b", "\x7d", "(", ")", "[", "]", ";", ",", "<", ">", "+", "-",
    "*", "/", "%", "&", "|", "^", "!", "~", "?", ":", "=", ".", "@", "#"].map String.toList

def isBlank (c : Char) : Bool :=
  c = ' ' || c = '\t' || c = '\n' || c = '\x0c' || c = '\r'

def isIdentifierStart (c : Char) : Bool :=
  c = '$' || c = '_' || c = '\\' || Text.Property.isAlphabetic c

def isIdentifierPart (c : Char) : Bool :=
  c = '$' || c = '_' || c = '\\' || c = '\u200c' || c = '\u200d'
    || Text.Property.isAlphanumeric c

def isHexDigit (c : Char) : Bool :=
  c.isDigit || ('a' ≤ c && c ≤ 'f') || ('A' ≤ c && c ≤ 'F')

def startsWith (p : Char → Bool) (cs : Text) : Bool := (cs.head?.map p).getD false

/-- The characters of a block comment after its opening, up to and with its closing. -/
def blockCommentLength? : Text → Option Nat
  | [] => none
  | '*' :: '/' :: _ => some 2
  | _ :: cs => (blockCommentLength? cs).map (· + 1)

/-- The bytes of a string after its opening quote, up to and with its closing one. -/
def stringLength? (quote : Char) : Text → Option Nat
  | [] => none
  | '\\' :: _ :: cs => (stringLength? quote cs).map (· + 2)
  | c :: cs =>
    if c = quote then some 1
    else if c = '\n' || c = '\\' then none
    else (stringLength? quote cs).map (· + 1)

def isDigitOrSeparator (c : Char) : Bool := c.isDigit || c = '_'

/-- The length of an exponent: one without digits is none. -/
def exponentLength : Text → Nat
  | e :: cs =>
    if e = 'e' || e = 'E' then
      let sign := if startsWith (fun c => c = '+' || c = '-') cs then 1 else 0
      let digits := ((cs.drop sign).takeWhile Char.isDigit).length
      if digits = 0 then 0 else 1 + sign + digits
    else 0
  | [] => 0

def fractionLength : Text → Nat
  | '.' :: cs => 1 + (cs.takeWhile isDigitOrSeparator).length
  | _ => 0

/-- The length of the mark of a large integer. -/
def bigintLength : Text → Nat
  | 'n' :: _ => 1
  | _ => 0

/-- The length of a number in another base, without the mark of a large integer. -/
def radixLength? : Text → Option Nat
  | '0' :: x :: cs =>
    if x = 'x' || x = 'X' || x = 'o' || x = 'O' || x = 'b' || x = 'B' then
      some (2 + (cs.takeWhile fun c => isHexDigit c || c = '_').length)
    else none
  | _ => none

def decimalLength (cs : Text) : Nat :=
  let whole := (cs.takeWhile isDigitOrSeparator).length
  let fraction := fractionLength (cs.drop whole)
  let exponent := exponentLength (cs.drop (whole + fraction))
  whole + fraction + exponent

def numberLength (cs : Text) : Nat :=
  let n := (radixLength? cs).getD (decimalLength cs)
  n + bigintLength (cs.drop n)

def wordKind (word : Text) : TokenKind :=
  if word = "true".toList || word = "false".toList then .boolean
  else if word = "null".toList then .null
  else if keywords.contains word then .keyword
  else .identifier

/-- What lies ahead: bytes to skip, a token of so many bytes, or a fault. -/
inductive Step where
  | skip (length : Nat)
  | token (kind : TokenKind) (length : Nat)
  | fault (cause : HostCause)
deriving DecidableEq, Repr

/-- A name or a punctuator at the head of a text with bytes `bs`, both read by characters. A
question mark before a number with a leading point stands alone. -/
def wordAhead (bs cs : Text) : Step :=
  if startsWith isIdentifierStart cs then
    let word := cs.takeWhile isIdentifierPart
    .token (wordKind word) (Text.byteSize word)
  else
    match punctuators.find? (·.isPrefixOf cs) with
    | some p =>
      let alone := p = "?.".toList && startsWith Char.isDigit (bs.drop 2)
      .token .punctuator (if alone then 1 else Text.byteSize p)
    | none => .fault (.unexpectedCharacter (cs.headD '\x00'))

/-- The step at the head of the text `cs`, of bytes `b :: bs`, that is not a blank or a comment.
Strings and numbers are read byte by byte. -/
def tokenAhead (b : Char) (bs cs : Text) : Step :=
  if b = '"' || b = '\'' then
    match stringLength? b bs with
    | some n => .token .string (1 + n)
    | none => .fault .unterminatedString
  else if b.isDigit || (b = '.' && startsWith Char.isDigit bs) then
    .token .numeric (numberLength (b :: bs))
  else if b = '#' && startsWith isIdentifierStart (cs.drop 1) then
    .token .privateIdentifier (1 + Text.byteSize ((cs.drop 1).takeWhile isIdentifierPart))
  else wordAhead (b :: bs) cs

/-- The step at the head of a text. -/
def ahead (cs : Text) : Step :=
  match Text.bytes cs with
  | [] => .skip 0
  | b :: bs =>
    if isBlank b then .skip 1
    else if "//".toList.isPrefixOf cs then .skip (Text.byteSize (cs.takeWhile (· ≠ '\n')))
    else if "/*".toList.isPrefixOf cs then
      match blockCommentLength? (cs.drop 2) with
      | some n => .skip (2 + Text.byteSize ((cs.drop 2).take n))
      | none => .fault .unterminatedComment
    else tokenAhead b bs cs

/-- The step at `offset`, where an atom may start, and the atoms that are left. -/
def next (offset : Nat) (cs : Text) (atoms : List Atom) : Step × List Atom :=
  match atoms.dropWhile (·.range.start < offset) with
  | [] => (ahead cs, [])
  | atom :: later =>
    if atom.range.start ≠ offset then (ahead cs, atom :: later)
    else if atom.range.stop < offset then (.fault .cutCharacter, later)
    else (.token atom.kind (atom.range.stop - offset), later)

/-- The next `n` bytes and the text after them, when they end between two characters. -/
def cut? (cs : Text) (n : Nat) : Option (Text × Text) := do
  some (← Text.takeBytes? cs n, ← Text.dropBytes? cs n)

/-- The tokens of `cs`, which starts at `offset`, within so many turns. -/
def run (coords : Coordinates) : Nat → Nat → Text → List Atom → Except HostError (List Token)
  | _, _, [], _ => .ok []
  | 0, offset, _, _ => .error ⟨.outOfTurns, offset⟩
  | fuel + 1, offset, c :: cs, atoms =>
    match next offset (c :: cs) atoms with
    | (.fault cause, _) => .error ⟨cause, offset⟩
    | (.skip n, later) =>
      match cut? (c :: cs) n with
      | some (_, rest) => run coords fuel (offset + n) rest later
      | none => .error ⟨.cutCharacter, offset + n⟩
    | (.token kind n, later) =>
      match cut? (c :: cs) n with
      | some (value, rest) => do
        let ts ← run coords fuel (offset + n) rest later
        .ok (Token.at coords kind (String.ofList value) ⟨offset, offset + n⟩ :: ts)
      | none => .error ⟨.cutCharacter, offset + n⟩

end Scanner

/-- The tokens of a text, given its atoms in order of their starts. Each turn takes a character or
an atom. -/
def tokenize (coords : Coordinates) (atoms : List Atom) : Except HostError (List Token) :=
  Scanner.run coords (coords.text.length + atoms.length) 0 coords.text atoms

end Loom
