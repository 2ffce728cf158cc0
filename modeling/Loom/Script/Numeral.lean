import Loom.Script.Escape
import Loom.Script.Lexeme

/-!
Number literals: decimal, binary, octal and hexadecimal, with separators, and the large integers
that end in `n`.

A literal in a power of two is rounded once when its characters have at most 64 bits; a longer one
is rounded again at each digit, leading zeros and separators included in its length.
-/

namespace Loom.Script.Numeral

structure Found where
  length : Nat
  value : Option Double
  /-- How many characters precede the place where a digit is missing. -/
  fault : Option Nat
  /-- Whether it counts as a number in spite of that. -/
  readable : Bool
  /-- Whether names and digits may not follow it. -/
  delimited : Bool

def binaryValue? (c : Char) : Option Nat :=
  if c = '0' then some 0 else if c = '1' then some 1 else none

def decimalValue? (c : Char) : Option Nat := if c.isDigit then some (c.toNat - 48) else none

/-- The digits and separators at the start of a text, and whether a digit is missing after the last
one. -/
def run (digit? : Char → Option Nat) : Text → Text × Bool
  | '_' :: c :: cs =>
    if (digit? c).isSome then
      let (found, broken) := run digit? cs
      ('_' :: c :: found, broken)
    else (['_'], true)
  | ['_'] => (['_'], true)
  | c :: cs =>
    if (digit? c).isSome then
      let (found, broken) := run digit? cs
      (c :: found, broken)
    else ([], false)
  | [] => ([], false)

/-- A run that has to start with a digit. -/
def runOfDigit (digit? : Char → Option Nat) (cs : Text) : Text × Bool :=
  if cs.head?.any fun c => (digit? c).isSome then run digit? cs else ([], true)

def natOf (base : Nat) (digit? : Char → Option Nat) (digits : Text) : Nat :=
  digits.foldl (fun n c => match digit? c with | some d => n * base + d | none => n) 0

def accumulate (base : Nat) (digit? : Char → Option Nat) (digits : Text) : Double :=
  -- the running value is a whole number, so it stays a natural number
  Double.ofNat (digits.foldl (fun n c => match digit? c with
    | some d => Double.roundNat (n * base + d)
    | none => n) 0)

/-- The value of digits and separators in a base that is a power of two. -/
def radixValue (base : Nat) (digit? : Char → Option Nat) (digits : Text) : Double :=
  if digits.length * base.log2 ≤ 64 then Double.ofNat (natOf base digit? digits)
    else accumulate base digit? digits

def radix (base : Nat) (digit? : Char → Option Nat) (cs : Text) : Found :=
  let (digits, broken) := runOfDigit digit? cs
  let size := digits.length + 2
  if broken then ⟨size, none, some size, false, true⟩
  else if (cs.drop digits.length).head? = some 'n' then ⟨size + 1, none, none, true, true⟩
  else ⟨size, some (radixValue base digit? digits), none, true, true⟩

/-- An exponent: its characters, its value, and whether a digit is missing at its end. -/
structure Exponent where
  length : Nat
  value : Int
  broken : Bool

def exponent (cs : Text) : Exponent :=
  let (sign, signs, rest) : Int × Nat × Text := match cs with
    | '+' :: rest => (1, 1, rest)
    | '-' :: rest => (-1, 1, rest)
    | _ => (1, 0, cs)
  let (digits, broken) := runOfDigit decimalValue? rest
  ⟨1 + signs + digits.length, sign * natOf 10 decimalValue? digits, broken⟩

def optionalExponent : Text → Exponent
  | 'e' :: cs | 'E' :: cs => exponent cs
  | _ => ⟨0, 0, false⟩

/-- A decimal number of a whole part, a fraction and an exponent. `size` counts the characters up to
the exponent. -/
def decimal (whole fraction : Text) (size : Nat) (e : Exponent) (fault : Option Nat)
    (delimited : Bool) : Found :=
  let places := (fraction.filter (·.isDigit)).length
  let value := Double.ofDecimal (natOf 10 decimalValue? (whole ++ fraction)) (e.value - places)
  let missing := if e.broken then some (size + e.length) else none
  ⟨size + e.length, some value, fault.orElse fun _ => missing, true, delimited⟩

def afterPoint (whole : Text) (fault : Option Nat) (cs : Text) : Found :=
  let (fraction, broken) := if cs.head?.any (·.isDigit) then run decimalValue? cs else ([], false)
  let size := whole.length + 1 + fraction.length
  decimal whole fraction size (optionalExponent (cs.drop fraction.length))
    (fault.orElse fun _ => if broken then some size else none) true

def afterDigits (cs : Text) : Found :=
  let (whole, broken) := run decimalValue? cs
  let fault := if broken then some whole.length else none
  match cs.drop whole.length with
  | '.' :: rest => afterPoint whole fault rest
  | 'n' :: _ => ⟨whole.length + 1, none, fault, true, true⟩
  | rest => decimal whole [] whole.length (optionalExponent rest) fault true

/-- A number that starts with a zero and another digit. It is octal if its digits allow that. -/
def afterZero (cs : Text) : Found :=
  let digits := cs.takeWhile (·.isDigit)
  let size := digits.length
  if digits.all fun c => (Escape.octalValue? c).isSome then
    ⟨size, some (radixValue 8 Escape.octalValue? (digits.drop 1)), none, true, true⟩
  else match cs.drop size with
    | '.' :: rest => afterPoint digits none rest
    | 'e' :: rest => decimal digits [] size (exponent rest) none false
    | _ => decimal digits [] size ⟨0, 0, false⟩ none true

/-- The number literal at the start of a text that begins with a digit or with a point and a
digit. -/
def read (cs : Text) : Found :=
  match cs with
  | '.' :: rest => afterPoint [] none rest
  | '0' :: c :: rest =>
    if c = 'x' || c = 'X' then radix 16 Escape.hexValue? rest
    else if c = 'o' || c = 'O' then radix 8 Escape.octalValue? rest
    else if c = 'b' || c = 'B' then radix 2 binaryValue? rest
    else if c = 'e' || c = 'E' then decimal ['0'] [] 1 (exponent rest) none false
    else if c = '.' then afterPoint ['0'] none rest
    else if c = 'n' then ⟨2, none, none, true, true⟩
    else if c.isDigit then afterZero cs
    else decimal ['0'] [] 1 ⟨0, 0, false⟩ none true
  | _ => afterDigits cs

end Loom.Script.Numeral
