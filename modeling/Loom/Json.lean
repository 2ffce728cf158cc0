/-!
JSON values as the front end writes them.

Numbers keep their spelling and objects keep every member in order, repeated keys included, because
the readers of documents and options tell those cases apart.
-/

namespace Loom

inductive Json where
  | null
  | bool (value : Bool)
  /-- A number, as it is spelled. -/
  | number (spelling : List Char)
  | string (value : String)
  | array (items : List Json)
  | object (members : List (String × Json))
  /-- Well-formed text that stands for no value: a string with an unpaired surrogate, or an object
  with such a key. It may be skipped and not used. -/
  | unreadable
deriving Inhabited

namespace Json

def ofNat (n : Nat) : Json := .number (Nat.toDigits 10 n)

def ofOption (f : α → Json) : Option α → Json
  | none => .null
  | some a => f a

def ofList (f : α → Json) (xs : List α) : Json := .array (xs.map f)

def string? : Json → Option String
  | .string s => some s
  | _ => none

def bool? : Json → Option Bool
  | .bool b => some b
  | _ => none

def array? : Json → Option (List Json)
  | .array items => some items
  | _ => none

def digitsValue (ds : List Char) : Nat := ds.foldl (fun n d => 10 * n + (d.toNat - '0'.toNat)) 0

/-- A number spelled with digits alone, below `bound`. -/
def natBelow? (bound : Nat) : Json → Option Nat
  | .number ds => if ds.all Char.isDigit && digitsValue ds < bound then some (digitsValue ds)
    else none
  | _ => none

def member? (key : String) : Json → Option Json
  | .object members => (members.find? (·.1 == key)).map (·.2)
  | _ => none

end Json

end Loom
