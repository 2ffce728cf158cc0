import Mathlib.Data.Finset.Card
import Mathlib.Logic.Relation

/-!
Depth: where no number leads back to itself, a walk along a relation between the numbers below a
bound has an end.

The numbers that can still be reached get fewer with each step.
-/

namespace Loom

open Relation Finset

variable {R : Nat → Nat → Prop} {size x y : Nat}

open Classical in
/-- The number of numbers that are reached from `x` in at least one step. -/
noncomputable def reachCount (R : Nat → Nat → Prop) (size x : Nat) : Nat :=
  ((range size).filter (TransGen R x)).card

theorem reachCount_lt (hcycle : ¬ TransGen R y y) (hstep : R x y) (hy : y < size) :
    reachCount R size y < reachCount R size x := by
  classical
  refine card_lt_card (ssubset_iff_of_subset ?_ |>.mpr ⟨y, ?_, ?_⟩)
  · exact monotone_filter_right _ fun z _ hz => .head hstep hz
  · simpa [hy] using TransGen.single hstep
  · simpa using fun _ => hcycle

theorem reachCount_lt_size (hcycle : ¬ TransGen R x x) (hx : x < size) :
    reachCount R size x < size := by
  classical
  have hssub := filter_ssubset.mpr ⟨x, mem_range.mpr hx, hcycle⟩
  simpa [reachCount] using card_lt_card hssub

end Loom
