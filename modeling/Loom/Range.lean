/-!
Byte ranges of a text, and the line/column positions that go with them.
-/

namespace Loom

/-- A half-open range of byte offsets: from `start` up to, not including, `stop`. -/
structure Range where
  start : Nat
  stop : Nat
deriving DecidableEq, Repr, Inhabited

/-- A place in a text: the line counts from 1, the column from 0 in characters. -/
structure Position where
  line : Nat
  column : Nat
deriving DecidableEq, Repr, Inhabited

structure Location where
  start : Position
  stop : Position
deriving DecidableEq, Repr, Inhabited

namespace Range

/-- Offsets are machine words: arithmetic on them wraps at this modulus. -/
def wordModulus : Nat := UInt64.size

def toWord (n : Int) : Nat := (n % (wordModulus : Int)).toNat

def length (r : Range) : Nat := toWord ((r.stop : Int) - r.start)

def isEmpty (r : Range) : Bool := r.start == r.stop

/-- Whether `inner` lies inside `outer`; the ends may coincide. -/
def contains (outer inner : Range) : Bool :=
  outer.start ≤ inner.start && inner.stop ≤ outer.stop

theorem contains_iff {outer inner : Range} :
    outer.contains inner = true ↔ outer.start ≤ inner.start ∧ inner.stop ≤ outer.stop := by
  simp [contains]

/-- Moves the range back by `delta`, the distance from a source offset to the offset of its copy. -/
def shifted (r : Range) (delta : Int) : Range :=
  ⟨toWord ((r.start : Int) - delta), toWord ((r.stop : Int) - delta)⟩

/-- The range as it is written in messages: `start..stop`. -/
def render (r : Range) : String := toString r.start ++ ".." ++ toString r.stop

end Range

end Loom
