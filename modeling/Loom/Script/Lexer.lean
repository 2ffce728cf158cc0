import Loom.Script.Numeral
import Loom.Token.Scanner

/-!
Reading the next lexeme of a script.

A slash is read as an operator and a closing brace as a mark; where the grammar expects a regular
expression or goes on with a template, it asks for these itself (`regex`, `templatePart`).
-/

namespace Loom.Script

/-- A comment in its place: all of it, and what stands inside its marks. -/
structure Remark where
  kind : CommentKind
  range : Range
  content : Range
deriving Inhabited

/-- What lies between two lexemes, up to where the next one starts. -/
structure Gap where
  offset : Nat
  rest : Text
  newline : Bool
  comments : List Remark
  fault : Option Nat

/-- What was read in one place: the lexeme, its characters, and the offsets of the faults in it. -/
structure Reading where
  lexeme : Lexeme
  length : Nat
  faults : List Nat

namespace Lexer

/-- Longest first. A closing angle bracket is always read alone. -/
def marks : List Text :=
  ["...", "===", "!==", "**=", "<<=", "&&=", "||=", "??=", "=>", "==", "!=", "<=", "&&", "||", "??",
    "?.", "++", "--", "+=", "-=", "*=", "/=", "%=", "&=", "|=", "^=", "**", "<<", openBrace,
    closeBrace,
    "(", ")", "[", "]", ";", ",", "<", ">", "+", "-", "*", "/", "%", "&", "|", "^", "!", "~", "?",
    ":", "=", ".", "@"].map String.toList

/-- The marks that begin with a closing angle bracket, longest first. -/
def angleMarks : List Text := [">>>=", ">>>", ">>=", ">>", ">="].map String.toList

def lineComment (g : Gap) : Gap :=
  let body := g.rest.takeWhile fun c => !isLineBreak c
  let stop := g.offset + Text.byteSize body
  { g with
    offset := stop
    rest := g.rest.drop body.length
    comments := g.comments ++ [⟨.line, ⟨g.offset, stop⟩, ⟨g.offset + 2, stop⟩⟩] }

def blockComment (g : Gap) : Gap :=
  match Scanner.blockCommentLength? (g.rest.drop 2) with
  | some n =>
    let body := g.rest.take (n + 2)
    let stop := g.offset + Text.byteSize body
    { g with
      offset := stop
      rest := g.rest.drop (n + 2)
      newline := g.newline || body.any isLineBreak
      comments := g.comments ++ [⟨.block, ⟨g.offset, stop⟩, ⟨g.offset + 2, stop - 2⟩⟩] }
  | none => { g with fault := some g.offset }

def startsWith (s : String) (cs : Text) : Bool := s.toList.isPrefixOf cs

/-- Skips separators, line breaks and comments, of which there are at most as many as the fuel is
long; `markup` admits the comment marks of markup. -/
def skip (markup : Bool) : Text → Gap → Gap
  | [], g => g
  | _ :: fuel, g =>
    match g.rest with
    | [] => g
    | c :: cs =>
      if isLineBreak c || isSeparator c then
        skip markup fuel
          { g with offset := g.offset + c.utf8Size, rest := cs, newline := g.newline || isLineBreak c }
      else if startsWith "//" g.rest || (markup && startsWith "<!--" g.rest)
          || (markup && g.newline && startsWith "-->" g.rest) then
        skip markup fuel (lineComment g)
      else if startsWith "/*" g.rest then
        let after := blockComment g
        if after.fault.isSome then after else skip markup fuel after
      else g

/-- A name: its characters, how many it is written with, whether it has escapes, and the offsets of
the wrong ones. -/
structure Name where
  text : Text
  length : Nat
  escaped : Bool
  faults : List Nat

/-- What an escape in a name stands for, and the number of its characters. If it stands for nothing,
the number of characters before the fault. -/
def nameEscape (allowed : Char → Bool) (cs : Text) : Except Nat Char × Nat :=
  match cs with
  | 'u' :: more =>
    match Escape.codePoint? more with
    | some (n, _) =>
      let length := if more.head? = some '\x7b' then (more.takeWhile (· ≠ '\x7d')).length + 3 else 6
      if Escape.isHigh n || Escape.isLow n then (.error 1, length)
      else if allowed (Char.ofNat n) then (.ok (Char.ofNat n), length)
      else (.error length, length)
    | none => (.error 1, 2)
  | _ => (.error 1, 1 + (cs.take 1).length)

/-- The name at the start of a text, which is at most as long as the fuel. -/
def name (first : Bool) : Text → Nat → Text → Name
  | [], _, _ => ⟨[], 0, false, []⟩
  | _, _, [] => ⟨[], 0, false, []⟩
  | _ :: fuel, offset, c :: cs =>
    let allowed := fun (ch : Char) => if first then isNameStart ch else isNamePart ch
    if c = '\\' then
      let (found, length) := nameEscape allowed cs
      let written := (c :: cs).take length
      let more := name false fuel (offset + Text.byteSize written) ((c :: cs).drop length)
      match found with
      | .ok ch => { more with text := ch :: more.text, length := length + more.length, escaped := true }
      | .error n =>
        { more with length := length + more.length, escaped := true, faults := (offset + n) :: more.faults }
    else if allowed c then
      let more := name false fuel (offset + c.utf8Size) cs
      { more with text := c :: more.text, length := more.length + 1 }
    else ⟨[], 0, false, []⟩

def word (offset : Nat) (cs : Text) : Reading :=
  let found := name true cs offset cs
  ⟨.word (String.ofList found.text) found.escaped, found.length, found.faults⟩

def privateName (offset : Nat) (cs : Text) : Reading :=
  let found := name true cs (offset + 1) (cs.drop 1)
  if found.length = 0 then ⟨.unreadable, 1, [offset + 1]⟩
  else ⟨.privateName (String.ofList found.text), found.length + 1, found.faults⟩

def number (offset : Nat) (cs : Text) : Reading :=
  let found := Numeral.read cs
  let rest := cs.drop found.length
  let place := fun n => offset + Text.byteSize (cs.take n)
  let faults := found.fault.toList.map place
  if !found.readable then ⟨.unreadable, found.length, faults⟩
  else if found.delimited && rest.head?.any fun c => c.isDigit || isNameStart c then
    let more := 1 + ((rest.drop 1).takeWhile isNameStart).length
    ⟨.unreadable, found.length + more, faults ++ [place found.length]⟩
  else match found.value with
    | some v => ⟨.number v, found.length, faults⟩
    | none => ⟨.bigint, found.length, faults⟩

/-- The characters of a string after its opening quote, and whether it is closed. -/
def quotedLength (quote : Char) : Text → Nat × Bool
  | [] => (0, false)
  | '\\' :: '\r' :: '\n' :: cs => let (n, closed) := quotedLength quote cs; (n + 3, closed)
  | '\\' :: _ :: cs => let (n, closed) := quotedLength quote cs; (n + 2, closed)
  | c :: cs =>
    if c = quote then (0, true)
    else if c = '\n' || c = '\r' then (0, false)
    else let (n, closed) := quotedLength quote cs; (n + 1, closed)

/-- A string. One that does not end is a fault at its start, after the faults of its escapes. -/
def string (quote : Char) (offset : Nat) (cs : Text) : Reading :=
  let (n, closed) := quotedLength quote (cs.drop 1)
  let (value, wrong) := Escape.cookString (offset + 1) ((cs.drop 1).take n)
  if closed then ⟨.string value, n + 2, wrong⟩
  else ⟨.unreadable, n + 1, wrong ++ [offset]⟩

def partLength? : Text → Option (Nat × Bool)
  | [] => none
  | '\x60' :: _ => some (0, true)
  | '$' :: '\x7b' :: _ => some (0, false)
  | '\\' :: _ :: cs => (partLength? cs).map fun (n, last) => (n + 2, last)
  | _ :: cs => (partLength? cs).map fun (n, last) => (n + 1, last)

def templatePart (offset : Nat) (cs : Text) : Reading :=
  match partLength? (cs.drop 1) with
  | some (n, last) =>
    let content := (cs.drop 1).take n
    let cooked := Escape.cookTemplate? content
    let raw := if cooked.isSome then Escape.rawTemplate content else content
    ⟨.template (String.ofList raw) cooked last, n + (if last then 2 else 3), []⟩
  | none => ⟨.unreadable, cs.length, [offset]⟩

/-- The characters of a regular expression after its opening slash, and whether it is closed. A
slash inside brackets does not close it. -/
def patternLength (bracket : Bool) : Text → Nat × Bool
  | [] => (0, false)
  | '\\' :: c :: cs =>
    if isLineBreak c then (2, false)
    else let (n, closed) := patternLength bracket cs; (n + 2, closed)
  | c :: cs =>
    if isLineBreak c then (1, false)
    else if c = '/' && !bracket then (0, true)
    else
      let (n, closed) := patternLength ((bracket || c = '[') && c ≠ ']') cs
      (n + 1, closed)

def flagFaults (offset : Nat) (seen : List Char) : Text → List Nat
  | [] => []
  | c :: cs =>
    let more := flagFaults (offset + 1) (c :: seen) cs
    if "dgimsuvy".toList.contains c && !seen.contains c then more else offset :: more

def regex (offset : Nat) (cs : Text) : Reading :=
  let (n, closed) := patternLength false (cs.drop 1)
  let pattern := (cs.drop 1).take n
  if closed then
    let flags := (cs.drop (n + 2)).takeWhile fun c => c.isAlphanum || c = '$' || c = '_'
    let place := offset + 2 + Text.byteSize pattern
    ⟨.regex (String.ofList pattern) (String.ofList flags), n + 2 + flags.length,
      flagFaults place [] flags⟩
  else ⟨.regex (String.ofList pattern) "", n + 1, [offset]⟩

/-- The mark at the start of a text. An optional-chaining mark is not followed by a digit. -/
def mark (offset : Nat) (cs : Text) : Reading :=
  match marks.find? (·.isPrefixOf cs) with
  | some m =>
    if m = "?.".toList && (cs.drop 2).head?.any (·.isDigit) then ⟨.mark "?", 1, []⟩
    else ⟨.mark (String.ofList m), m.length, []⟩
  | none => ⟨.unreadable, 1, [offset]⟩

def reading (offset : Nat) (cs : Text) : Reading :=
  match cs with
  | [] => ⟨.stop, 0, []⟩
  | c :: rest =>
    if isNameStart c || c = '\\' then word offset cs
    else if c.isDigit || (c = '.' && rest.head?.any (·.isDigit)) then number offset cs
    else if c = '\x22' || c = '\x27' then string c offset cs
    else if c = '\x60' then templatePart offset cs
    else if c = '#' then privateName offset cs
    else mark offset cs

def place (offset : Nat) (newline : Bool) (cs : Text) (r : Reading) : Lexed :=
  ⟨r.lexeme, ⟨offset, offset + Text.byteSize (cs.take r.length)⟩, newline, cs, cs.drop r.length⟩

/-- The next lexeme of a text, the comments before it and the faults in it. The flag tells whether
the text starts on a new line. -/
def next (markup : Bool) (offset : Nat) (newline : Bool) (cs : Text) :
    Lexed × List Remark × List Nat :=
  let gap := skip markup cs ⟨offset, cs, newline, [], none⟩
  match gap.fault with
  | some start => (⟨.stop, ⟨start, start⟩, gap.newline, [], []⟩, gap.comments, [start])
  | none =>
    let r := reading gap.offset gap.rest
    (place gap.offset gap.newline gap.rest r, gap.comments, r.faults)

def skipInterpreterLine (cs : Text) : Nat × Text :=
  if startsWith "#!" cs then
    let line := cs.takeWhile fun c => !isLineBreak c
    (Text.byteSize line, cs.drop line.length)
  else (0, cs)

end Lexer

end Loom.Script
