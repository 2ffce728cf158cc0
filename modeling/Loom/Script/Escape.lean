import Loom.Text

/-!
What the escapes in strings, templates and names stand for.

Escapes spell code units of sixteen bits. A surrogate that has no partner is no character; it is
written as a replacement character and its four digits, and then so is every true replacement
character beside it.
-/

namespace Loom.Script

/-- A part of a cooked text: a character, or a surrogate without its partner. -/
inductive Piece where
  | char (c : Char)
  | surrogate (unit : Nat)
deriving DecidableEq, Repr

/-- Which escapes are allowed: templates have no octal ones. -/
inductive EscapeMode where
  | string
  | template
deriving DecidableEq, Repr

namespace Escape

def replacement : Char := '\ufffd'

def hexValue? (c : Char) : Option Nat :=
  if c.isDigit then some (c.toNat - 48)
  else if 'a' ≤ c && c ≤ 'f' then some (c.toNat - 87)
  else if 'A' ≤ c && c ≤ 'F' then some (c.toNat - 55)
  else none

def octalValue? (c : Char) : Option Nat :=
  if '0' ≤ c && c ≤ '7' then some (c.toNat - 48) else none

def value? (base : Nat) (digit? : Char → Option Nat) : Text → Option Nat :=
  List.foldlM (fun n c => (digit? c).map (n * base + ·)) 0

def hex4 (n : Nat) : Text :=
  let ds := Nat.toDigits 16 n
  List.replicate (4 - ds.length) '0' ++ ds

def isHigh (n : Nat) : Bool := 0xd800 ≤ n && n ≤ 0xdbff

def isLow (n : Nat) : Bool := 0xdc00 ≤ n && n ≤ 0xdfff

/-- The piece for a code point; surrogates stand alone. -/
def ofCode (n : Nat) : Piece :=
  if isHigh n || isLow n then .surrogate n else .char (Char.ofNat n)

def assemble (pieces : List Piece) : String :=
  let lone := pieces.any fun p => match p with
    | .surrogate _ => true
    | .char _ => false
  String.ofList <| pieces.flatMap fun p => match p with
    | .surrogate n => replacement :: hex4 n
    | .char c => if lone && c = replacement then replacement :: hex4 c.toNat else [c]

def fourDigits? : Text → Option (Nat × Text)
  | a :: b :: c :: d :: cs => (value? 16 hexValue? [a, b, c, d]).map (·, cs)
  | _ => none

/-- The code point after `\u`: four digits, or any number of them in braces. -/
def codePoint? : Text → Option (Nat × Text)
  | '\x7b' :: cs =>
    let digits := cs.takeWhile (· ≠ '\x7d')
    match cs.dropWhile (· ≠ '\x7d'), digits with
    | _ :: rest, _ :: _ =>
      (value? 16 hexValue? digits).bind fun n => if n ≤ 0x10ffff then some (n, rest) else none
    | _, _ => none
  | cs => fourDigits? cs

def pair? (high : Nat) : Text → Option (Char × Text)
  | '\\' :: 'u' :: cs =>
    (fourDigits? cs).bind fun (low, rest) =>
      if isHigh high && isLow low then
        some (Char.ofNat (0x10000 + (high - 0xd800) * 0x400 + (low - 0xdc00)), rest)
      else none
  | _ => none

def unicode? (cs : Text) : Option (List Piece × Text) :=
  (codePoint? cs).map fun (n, rest) =>
    if cs.head? = some '\x7b' then ([ofCode n], rest)
    else match pair? n rest with
      | some (c, rest) => ([.char c], rest)
      | none => ([ofCode n], rest)

/-- Up to three octal digits, of a value below 256. -/
def octal (first : Nat) (cs : Text) : Nat × Text :=
  let most := if first ≤ 3 then 2 else 1
  let digits := (cs.take most).takeWhile fun c => (octalValue? c).isSome
  (digits.foldl (fun n c => n * 8 + (octalValue? c).getD 0) first, cs.drop digits.length)

/-- What the text after a backslash stands for, and the text after that; nothing if it is no
escape. -/
def read? (mode : EscapeMode) : Text → Option (List Piece × Text)
  | [] => some ([], [])
  | '\r' :: '\n' :: cs => some ([], cs)
  | c :: cs =>
    if c = '\n' || c = '\r' || c = '\u2028' || c = '\u2029' then some ([], cs)
    else if c = 'n' then some ([.char '\n'], cs)
    else if c = 'r' then some ([.char '\r'], cs)
    else if c = 't' then some ([.char '\t'], cs)
    else if c = 'b' then some ([.char '\x08'], cs)
    else if c = 'v' then some ([.char '\x0b'], cs)
    else if c = 'f' then some ([.char '\x0c'], cs)
    else if c = 'u' then unicode? cs
    else if c = 'x' then
      match cs with
      | a :: b :: rest => (value? 16 hexValue? [a, b]).map fun n => ([.char (Char.ofNat n)], rest)
      | _ => none
    else if c = '0' && !(cs.head?.any (·.isDigit)) then some ([.char '\x00'], cs)
    else if c.isDigit then
      match mode, octalValue? c with
      | .template, _ => none
      | .string, some first => let (n, rest) := octal first cs; some ([.char (Char.ofNat n)], rest)
      | .string, none => some ([.char c], cs)
    else some ([.char c], cs)

/-- The pieces of a text, and the offsets of its wrong escapes. Templates write every line end as a
line feed. -/
def pieces (mode : EscapeMode) : Nat → Nat → Text → List Piece × List Nat
  | 0, _, _ | _, _, [] => ([], [])
  | fuel + 1, offset, c :: cs =>
    if c = '\\' then
      match read? mode cs with
      | some (found, rest) =>
        let size := Text.byteSize cs - Text.byteSize rest
        let (more, wrong) := pieces mode fuel (offset + 1 + size) rest
        (found ++ more, wrong)
      | none =>
        let (more, wrong) := pieces mode fuel (offset + 1) cs
        (more, offset :: wrong)
    else if mode = .template && c = '\r' then
      let (rest, size) := match cs with
        | '\n' :: rest => (rest, 2)
        | _ => (cs, 1)
      let (more, wrong) := pieces mode fuel (offset + size) rest
      (.char '\n' :: more, wrong)
    else
      let (more, wrong) := pieces mode fuel (offset + c.utf8Size) cs
      (.char c :: more, wrong)

def cookString (offset : Nat) (content : Text) : String × List Nat :=
  let (found, wrong) := pieces .string content.length offset content
  (assemble found, wrong)

def hasLoneSurrogate (content : Text) : Bool :=
  (pieces .string content.length 0 content).1.any fun p => match p with
    | .surrogate _ => true
    | .char _ => false

def cookTemplate? (content : Text) : Option String :=
  let (found, wrong) := pieces .template content.length 0 content
  if wrong.isEmpty then some (assemble found) else none

/-- The raw form of a template part without wrong escapes: every line end is a line feed. -/
def rawTemplate : Text → Text
  | [] => []
  | '\r' :: '\n' :: cs => '\n' :: rawTemplate cs
  | c :: cs => (if c = '\r' then '\n' else c) :: rawTemplate cs

end Escape

end Loom.Script
