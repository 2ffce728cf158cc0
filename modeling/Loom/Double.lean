/-!
Double-precision numbers by their bits, read from decimal and binary notation.

A double here is the 64-bit pattern of the IEEE 754 format: sign, eleven bits of exponent, 52 bits
of fraction. Reading rounds an exact rational to the nearest double, ties to even.
-/

namespace Loom

/-- A double, as its bit pattern. -/
structure Double where
  bits : UInt64
deriving DecidableEq, Repr, Inhabited

namespace Double

def zero : Double := ⟨0⟩

def infinity : Double := ⟨0x7ff0000000000000⟩

/-- Neither infinite nor not-a-number. -/
def isFinite (d : Double) : Bool := (d.bits >>> 52) &&& 0x7ff != 0x7ff

/-- The quotient rounded to the nearest integer, ties to even. -/
def roundDiv (num den : Nat) : Nat :=
  let q := num / den
  let r := num % den
  if 2 * r > den || (2 * r == den && q % 2 == 1) then q + 1 else q

/-- The bits of `m · 2^e`, where `m` has at most 53 bits and either `m` has exactly 53 bits or `e`
is the least exponent, -1074. A carry to 2^53 moves on to the next exponent. -/
def assemble (m : Nat) (e : Int) : Double :=
  if m < Nat.pow 2 52 then ⟨m.toUInt64⟩
  else
    let biased := e + 1075
    let bits := (biased.toNat - 1) * Nat.pow 2 52 + m
    if bits ≥ 0x7ff0000000000000 then infinity else ⟨bits.toUInt64⟩

/-- The double nearest to the positive rational `num / den`. -/
def ofRatio (num den : Nat) : Double :=
  if num == 0 || den == 0 then zero
  else
    -- an exponent for which the quotient has 53 or 54 bits, then the one for which it has 53
    let guess : Int := (num.log2 : Int) - den.log2 - 53
    let scaled (e : Int) : Nat × Nat :=
      if e ≥ 0 then (num, den * Nat.pow 2 e.toNat) else (num * Nat.pow 2 (-e).toNat, den)
    let fits (e : Int) : Bool := let (n, d) := scaled e; n < d * Nat.pow 2 53
    let e := if fits guess then guess else guess + 1
    let e := max e (-1074)
    let (n, d) := scaled e
    assemble (roundDiv n d) e

/-- The double nearest to `m · 10^e`. Exponents far outside the range of doubles are cut short. -/
def ofDecimal (m : Nat) (e : Int) : Double :=
  let digits : Int := (Nat.toDigits 10 m).length
  if m == 0 then zero
  else if digits + e > 400 then infinity
  else if digits + e < -400 then zero
  else if e ≥ 0 then ofRatio (m * Nat.pow 10 e.toNat) 1
  else ofRatio m (Nat.pow 10 (-e).toNat)

def ofNat (n : Nat) : Double := ofRatio n 1

/-- The natural number nearest to `n` that has at most 53 significant bits, ties to even: the value
of a double, as long as there is one so large. -/
def roundNat (n : Nat) : Nat :=
  let size := n.log2 + 1
  if size ≤ 53 then n
  else
    let unit := Nat.pow 2 (size - 53)
    roundDiv n unit * unit

def hex (d : Double) : String :=
  let ds := Nat.toDigits 16 d.bits.toNat
  String.ofList (List.replicate (16 - ds.length) '0' ++ ds)

end Double

end Loom
