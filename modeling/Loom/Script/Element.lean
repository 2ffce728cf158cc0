import Loom.Script.Grammar

/-!
Elements of markup in an expression.

Plain scripts do not have them, but they are read before they are refused, so a fault inside of one
is found first. They leave no nodes. Between its tags an element holds text, which is not made of
lexemes: after each tag and each brace there the lexer is told to read a child instead.
-/

namespace Loom.Script

namespace Lexer

/-- What an element holds next: the opening of a tag or of braces, or the text up to one of them. -/
def child (offset : Nat) (cs : Text) : Reading :=
  let text := cs.takeWhile fun c => !("<>".toList.contains c || c = '\x7b' || c = '\x7d')
  match text, (cs.drop text.length).head? with
  | [], none => ⟨.stop, 0, []⟩
  | [], some '<' => ⟨.mark "<", 1, []⟩
  | [], some '\x7b' => ⟨.mark openBrace, 1, []⟩
  | _, some '>' | _, some '\x7d' => ⟨.unreadable, text.length + 1, [offset + Text.byteSize text]⟩
  | _, _ => ⟨.text, text.length, []⟩

/-- A string as the value of an attribute. It has no escapes, and line breaks may stand in it. -/
def attributeString (offset : Nat) (cs : Text) : Reading :=
  let content := (cs.drop 1).takeWhile fun c => some c ≠ cs.head?
  if content.length + 1 < cs.length then ⟨.string (String.ofList content), content.length + 2, []⟩
  else ⟨.unreadable, cs.length, [offset]⟩

/-- The characters of a name in markup after its first ones: they may also be hyphens. -/
def hyphenated (cs : Text) : Nat :=
  if cs.head? = some '-' then (cs.takeWhile fun c => c = '-' || isNamePart c).length else 0

end Lexer

namespace Element

open Loom.Script.Parser

def passTo (read : Nat → Text → Reading) : Parser Unit :=
  modify fun s =>
    let offset := s.current.range.stop
    let found := read offset s.current.rest
    { s with
      current := Lexer.place offset false s.current.rest found
      lastStop := offset
      lexerComplaints := s.lexerComplaints ++ found.faults }

/-- Moves past a mark that has to be there, to a child of an element or to the next lexeme. -/
def needBefore (inside : Bool) (text : String) : Parser Unit := do
  if !inside then return ← need text
  if !(← sees text) then faultAt (← here)
  passTo Lexer.child

/-! ## Names -/

def word : Parser String := do
  if !(← lexeme).isName then
    (unexpected : Parser Unit)
    return ""
  modify fun s =>
    let more := Lexer.hyphenated s.current.rest
    if more = 0 then s
    else
      let written := s.ahead.length - s.current.rest.length + more
      s.reread s.ahead ⟨.word (String.ofList (s.ahead.take written)) false, written, []⟩
  let found ← source
  advance
  return found

/-- The name of an element: words that points join, or two that a colon joins. -/
inductive Name where
  | path (words : List String)
  | pair (first second : String)
deriving DecidableEq, Repr

def name : Parser Name := do
  let first ← word
  if ← take ":" then return .pair first (← word)
  let rest ← iterate (fun (found : List String) => do
    if !(← take ".") then return none
    let place ← here
    let next ← word
    if next.toList.contains '-' then return ← faultAt place
    return some (next :: found)) []
  return .path (first :: rest.reverse)

/-! ## Braces and attributes -/

variable (g : Grammar)

/-- What stands between braces, after the first of them. Nothing may stand there, and no expression
with commas. -/
def container (inside : Bool) : Parser Unit := do
  if !(← sees closeBrace) then
    let e ← expression g
    if let some (.sequenceExpression _) ← bareKind? e then complainOf e
  needBefore inside closeBrace

def attributeValue : Parser Unit := do
  if (← get).current.rest.head?.any fun c => c = '\x22' || c =
    '\x27' then passTo Lexer.attributeString
  else advance
  if (← lexeme).isString then pass
  else if ← take openBrace then container g false
  else if ← sees "<" then g.element false
  else unexpected

def attributeEntry : Parser Unit := do
  if ← take openBrace then
    need "..."
    let _ ← expression g
    need closeBrace
  else
    let _ ← word
    if ← take ":" then
      let _ ← word
    if ← sees "=" then attributeValue g

def attributes : Parser Unit := do
  let _ ← manyUntil (seesAny ["<", ">", "/"]) (attributeEntry g)

/-! ## Elements -/

def children : Parser Unit :=
  iterate (fun _ => do
    if ← faulted then return none
    match ← lexeme with
    | .mark "<" =>
      if (← nextLexeme).isMark "/" then return none
      g.element true
    | .mark "\x7b" =>
      advance
      if ← take "..." then
        let _ ← expression g
        needBefore true closeBrace
      else container g true
    | .text => pass
    | _ => return ← unexpected
    return some ()) ()

/-- The closing tag of an element, with the name of the opening one. A tag without a name is blamed
as a whole, another one at its name. -/
def closingTag (opened : Option Name) (inside : Bool) : Parser Unit := do
  let start ← here
  need "<"
  need "/"
  if ← sees ">" then
    needBefore inside ">"
    if opened.isSome then complain start
  else
    let place ← here
    let closed ← name
    needBefore inside ">"
    if some closed ≠ opened then complain place

/-- An element from its opening mark on; the flag says that it is a child of another one. -/
def element (inside : Bool) : Parser Unit := do
  need "<"
  if ← sees ">" then
    needBefore true ">"
    children g
    closingTag none inside
  else if (← lexeme).isName then
    let opened ← name
    attributes g
    if ← take "/" then needBefore inside ">"
    else
      needBefore true ">"
      children g
      closingTag (some opened) inside
  else unexpected

end Element

end Loom.Script
