import Loom.Json

/-!
Reading JSON text.

The grammar is strict: no comments, trailing commas, leading zeros, byte order mark or raw control
characters, and nothing but blanks after the value. Each reader takes the remaining characters and
returns what is left after its part.
-/

namespace Loom.Json.Reader

/-- The blanks allowed between the parts of a value. -/
def isBlank (c : Char) : Bool := c = ' ' || c = '\n' || c = '\t' || c = '\r'

def skipBlanks (cs : List Char) : List Char := cs.dropWhile isBlank

def hexDigit? (c : Char) : Option Nat :=
  if '0' ≤ c ∧ c ≤ '9' then some (c.toNat - '0'.toNat)
  else if 'a' ≤ c ∧ c ≤ 'f' then some (c.toNat - 'a'.toNat + 10)
  else if 'A' ≤ c ∧ c ≤ 'F' then some (c.toNat - 'A'.toNat + 10)
  else none

def hex4? (a b c d : Char) : Option Nat := do
  let a ← hexDigit? a
  let b ← hexDigit? b
  let c ← hexDigit? c
  let d ← hexDigit? d
  some (((a * 16 + b) * 16 + c) * 16 + d)

/-- One part of a string: a character, or a code unit given by a `\u` escape. -/
inductive Piece where
  | char (c : Char)
  | unit (n : Nat)

/-- The character named by a one-letter escape. -/
def shortEscape? : Char → Option Char
  | '"' => some '"'
  | '\\' => some '\\'
  | '/' => some '/'
  | 'b' => some '\x08'
  | 'f' => some '\x0c'
  | 'n' => some '\n'
  | 'r' => some '\r'
  | 't' => some '\t'
  | _ => none

/-- The pieces up to the closing quote. -/
def pieces : List Char → Option (List Piece × List Char)
  | [] => none
  | '"' :: cs => some ([], cs)
  | '\\' :: 'u' :: a :: b :: c :: d :: cs => do
    let n ← hex4? a b c d
    let (ps, rest) ← pieces cs
    some (.unit n :: ps, rest)
  | '\\' :: c :: cs => do
    let e ← shortEscape? c
    let (ps, rest) ← pieces cs
    some (.char e :: ps, rest)
  | c :: cs =>
    if c.toNat < 0x20 || c = '\\' then none
    else do
      let (ps, rest) ← pieces cs
      some (.char c :: ps, rest)

def isLead (n : Nat) : Bool := 0xD800 ≤ n && n < 0xDC00
def isTrail (n : Nat) : Bool := 0xDC00 ≤ n && n < 0xE000

/-- The characters that the pieces stand for; none when a surrogate has no partner. -/
def join : List Piece → Option (List Char)
  | [] => some []
  | .char c :: ps => (join ps).map (c :: ·)
  | .unit h :: .unit l :: ps =>
    if isLead h && isTrail l then
      (join ps).map (Char.ofNat (0x10000 + (h - 0xD800) * 0x400 + (l - 0xDC00)) :: ·)
    else if isLead h || isTrail h then none
    else (join (.unit l :: ps)).map (Char.ofNat h :: ·)
  | .unit h :: ps => if isLead h || isTrail h then none else (join ps).map (Char.ofNat h :: ·)

/-- A string after its opening quote; the inner option is empty for an unpaired surrogate. -/
def string? (cs : List Char) : Option (Option String × List Char) := do
  let (ps, rest) ← pieces cs
  some ((join ps).map String.ofList, rest)

/-- At least one digit. -/
def digits? (cs : List Char) : Option (List Char × List Char) :=
  let ds := cs.takeWhile Char.isDigit
  if ds.isEmpty then none else some (ds, cs.dropWhile Char.isDigit)

/-- The integer part: a lone zero, or digits that do not start with one. -/
def integer? : List Char → Option (List Char × List Char)
  | '0' :: cs => if (cs.head?.map Char.isDigit).getD false then none else some (['0'], cs)
  | cs => digits? cs

def fraction? : List Char → Option (List Char × List Char)
  | '.' :: cs => (digits? cs).map fun (ds, rest) => ('.' :: ds, rest)
  | cs => some ([], cs)

def exponent? : List Char → Option (List Char × List Char)
  | e :: cs =>
    if e = 'e' || e = 'E' then
      match cs with
      | s :: cs' =>
        if s = '+' || s = '-' then (digits? cs').map fun (ds, rest) => (e :: s :: ds, rest)
        else (digits? (s :: cs')).map fun (ds, rest) => (e :: ds, rest)
      | [] => none
    else some ([], e :: cs)
  | [] => some ([], [])

def magnitude? (cs : List Char) : Option (List Char × List Char) := do
  let (i, cs) ← integer? cs
  let (f, cs) ← fraction? cs
  let (e, cs) ← exponent? cs
  some (i ++ f ++ e, cs)

def number? : List Char → Option (List Char × List Char)
  | '-' :: cs => (magnitude? cs).map fun (m, rest) => ('-' :: m, rest)
  | cs => magnitude? cs

def objectOf (members : List (Option String × Json)) : Json :=
  match members.mapM (fun m => m.1.map (·, m.2)) with
  | some ms => .object ms
  | none => .unreadable

mutual

/-- A value, with blanks before it. Every level takes one unit of fuel. -/
def value? : Nat → List Char → Option (Json × List Char)
  | 0, _ => none
  | fuel + 1, cs =>
    match skipBlanks cs with
    | 'n' :: 'u' :: 'l' :: 'l' :: rest => some (.null, rest)
    | 't' :: 'r' :: 'u' :: 'e' :: rest => some (.bool true, rest)
    | 'f' :: 'a' :: 'l' :: 's' :: 'e' :: rest => some (.bool false, rest)
    | '"' :: rest => (string? rest).map fun (s, rest) =>
      ((s.map Json.string).getD .unreadable, rest)
    | '[' :: rest =>
      match skipBlanks rest with
      | ']' :: rest => some (.array [], rest)
      | rest => (items? fuel rest).map fun (xs, rest) => (.array xs, rest)
    | '{' :: rest =>
      match skipBlanks rest with
      | '}' :: rest => some (.object [], rest)
      | rest => (members? fuel rest).map fun (ms, rest) => (objectOf ms, rest)
    | rest => (number? rest).map fun (n, rest) => (.number n, rest)

def items? : Nat → List Char → Option (List Json × List Char)
  | 0, _ => none
  | fuel + 1, cs => do
    let (x, rest) ← value? fuel cs
    match skipBlanks rest with
    | ',' :: rest => (items? fuel rest).map fun (xs, rest) => (x :: xs, rest)
    | ']' :: rest => some ([x], rest)
    | _ => none

def members? : Nat → List Char → Option (List (Option String × Json) × List Char)
  | 0, _ => none
  | fuel + 1, cs =>
    match skipBlanks cs with
    | '"' :: rest => do
      let (key, rest) ← string? rest
      match skipBlanks rest with
      | ':' :: rest => do
        let (x, rest) ← value? fuel rest
        match skipBlanks rest with
        | ',' :: rest => (members? fuel rest).map fun (ms, rest) => ((key, x) :: ms, rest)
        | '}' :: rest => some ([(key, x)], rest)
        | _ => none
      | _ => none
    | _ => none

end

end Reader

/-- The value that a text stands for. A level of nesting takes at least one character, so the length
of the text is fuel enough. -/
def read? (cs : List Char) : Option Json := do
  let (v, rest) ← Reader.value? (cs.length + 1) cs
  if (Reader.skipBlanks rest).isEmpty then some v else none

end Loom.Json
