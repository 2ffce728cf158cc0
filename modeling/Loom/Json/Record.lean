import Loom.Double
import Loom.Json

/-!
Reading records and tagged unions out of JSON values.

A record is an object with known keys, or an array of its fields in declared order. A tagged union
is an object whose member `type` names the case, or an array that starts with the tag. Unknown
members are skipped; a repeated known member is refused.
-/

namespace Loom.Json

/-- The member with the given key: refused when repeated. The outer option is the refusal. -/
def single? (members : List (String × Json)) (key : String) : Option (Option Json) :=
  match members.filter (·.1 == key) with
  | [] => some none
  | [m] => some (some m.2)
  | _ => none

/-- The fields of a record, in the order of `names`; missing ones are `none`. -/
def fields? (names : List String) : Json → Option (List (Option Json))
  | .object members => names.mapM (single? members)
  | .array items =>
    if items.length ≤ names.length then
      some (items.map some ++ List.replicate (names.length - items.length) none)
    else none
  | _ => none

def required (read : Json → Option α) (field : Option Json) : Option α := field.bind read

/-- Reads a field that has a value of its own when it is missing. -/
def defaulted (default : α) (read : Json → Option α) : Option Json → Option α
  | none => some default
  | some j => read j

/-- Reads a value that may be `null`. -/
def nullable (read : Json → Option α) : Json → Option (Option α)
  | .null => some none
  | j => (read j).map some

/-- Reads a field that may be missing or `null`. -/
def optional (read : Json → Option α) : Option Json → Option (Option α) :=
  defaulted none (nullable read)

def list (read : Json → Option α) (j : Json) : Option (List α) := do
  let items ← j.array?
  items.mapM read

/-- Where a value stands decides which spellings its names may have: a *streamed* value is read
straight from the text, a *buffered* one was kept aside, as the parts of a tagged union are. -/
inductive Place where
  | streamed
  | buffered
deriving DecidableEq

/-- What may stand for the absent content of a plain name written as an object. -/
def isUnit (place : Place) : Json → Bool
  | .null => true
  | .object [] => place == .buffered
  | _ => false

/-- One of a fixed set of names: a string, or an object with the name as its only key and no
content. -/
def oneOf (place : Place) (cases : List α) (name : α → String) : Json → Option α
  | .string s => cases.find? (name · == s)
  | .object [(s, content)] => if isUnit place content then cases.find? (name · == s) else none
  | _ => none

/-- The case that a tag names. Buffered values may also give the number of the case. -/
def tagIndex? (place : Place) (tags : List String) : Json → Option Nat
  | .string s => tags.findIdx? (· == s)
  | j@(.number _) => if place == .buffered then j.natBelow? tags.length else none
  | _ => none

/-- Splits a tagged union into the number of its case and the rest, still an object or an array. -/
def tagged? (place : Place) (tags : List String) : Json → Option (Nat × Json)
  | .object members => do
    let tag ← single? members "type"
    let i ← tag.bind (tagIndex? place tags)
    some (i, .object (members.filter (·.1 != "type")))
  | .array (tag :: items) => do
    let i ← tagIndex? place tags tag
    some (i, .array items)
  | _ => none

/-- Goes on with the digits of a number as long as its value fits into 64 bits. With the value, the
digits that are left. -/
def takeDigits (value : Nat) : List Char → Nat × List Char
  | [] => (value, [])
  | d :: ds =>
    let next := 10 * value + digitsValue [d]
    if next < UInt64.size then takeDigits next ds else (value, d :: ds)

/-- The mantissa and the exponent of a number, without its sign. The mantissa has at most 64 bits;
digits of the whole part that it has no room for count in the exponent. -/
def spelledParts (spelling : List Char) : Nat × Int :=
  let cs := spelling.dropWhile (· == '-')
  let isMark (c : Char) : Bool := c == 'e' || c == 'E'
  let mantissa := cs.takeWhile (!isMark ·)
  let power := cs.dropWhile (!isMark ·)
  let exponent : Int := digitsValue (power.filter Char.isDigit)
  let fraction := (mantissa.dropWhile (· != '.')).drop 1
  let (value, extra) := takeDigits 0 (mantissa.takeWhile (· != '.'))
  let (value, spare) := takeDigits value fraction
  let places : Int := fraction.length - spare.length
  (value, (if power.contains '-' then -exponent else exponent) + extra.length - places)

/-- Whether a number is not too large for a double. Mantissa and power of ten are rounded before
they are multiplied. -/
def spellsFinite (spelling : List Char) : Bool :=
  let (m, e) := spelledParts spelling
  m == 0 || e ≤ 0
    ||
      (e ≤ 308 && (Double.ofNat (Double.roundNat m * Double.roundNat (Nat.pow 10 e.toNat))).isFinite)

mutual

/-- Whether a value can be kept aside: everything in it can be read, and it has at most `limit`
nested arrays and objects. -/
def bufferable (limit : Nat) : Json → Bool
  | .unreadable => false
  | .number n => spellsFinite n
  | .array items =>
    match limit with
    | 0 => false
    | limit + 1 => bufferableItems limit items
  | .object members =>
    match limit with
    | 0 => false
    | limit + 1 => bufferableMembers limit members
  | _ => true

def bufferableItems (limit : Nat) : List Json → Bool
  | [] => true
  | x :: xs => bufferable limit x && bufferableItems limit xs

def bufferableMembers (limit : Nat) : List (String × Json) → Bool
  | [] => true
  | (_, x) :: ms => bufferable limit x && bufferableMembers limit ms

end

end Loom.Json
