import Mathlib.Data.List.Perm.Subperm
import Mathlib.Logic.Relation

/-!
Chains: an item followed by the items above it, where each item has at most one item directly above.

Scopes and nodes are ordered so. A walk upward with fuel stops early or goes on forever only where
there is no chain, and a chain has no more items than there are.
-/

open List

namespace Loom

/-- `u` is directly above `s`. -/
def Up (up : Nat → Option Nat) (s u : Nat) : Prop := up s = some u

/-- The list of an item and all items above it, in order. It exists when the way upward ends. -/
inductive Chain (up : Nat → Option Nat) : Nat → List Nat → Prop
  | top {s : Nat} : up s = none → Chain up s [s]
  | step {s u : Nat} {l : List Nat} : Up up s u → Chain up u l → Chain up s (s :: l)

variable {up : Nat → Option Nat} {s t u : Nat} {l : List Nat}

theorem up_unique (up : Nat → Option Nat) : Relator.RightUnique (Up up) := by
  intro s u w hu hw
  exact Option.some.inj (hu.symm.trans hw)

namespace Chain

theorem of_up (h : Chain up s l) (hu : Up up s u) : ∃ l', l = s :: l' ∧ Chain up u l' := by
  cases h with
  | top hs => rw [Up, hs] at hu; cases hu
  | step hw hl =>
    cases up_unique up hu hw
    exact ⟨_, rfl, hl⟩

theorem unique {l' : List Nat} (h : Chain up s l) (h' : Chain up s l') : l = l' := by
  induction h generalizing l' with
  | top hs =>
    cases h' with
    | top _ => rfl
    | step hu _ => rw [Up, hs] at hu; cases hu
  | step hu _ ih =>
    obtain ⟨l', rfl, hl⟩ := h'.of_up hu
    rw [ih hl]

theorem head_mem (h : Chain up s l) : s ∈ l := by
  cases h <;> simp

/-- The chain of an item above ends the chain. -/
theorem suffix (h : Chain up s l) (ht : t ∈ l) : ∃ l', Chain up t l' ∧ l' <:+ l := by
  induction h with
  | top hs =>
    obtain rfl := mem_singleton.mp ht
    exact ⟨_, .top hs, suffix_refl _⟩
  | step hu hl ih =>
    rcases mem_cons.mp ht with rfl | ht
    · exact ⟨_, .step hu hl, suffix_refl _⟩
    · obtain ⟨l', hl', hs⟩ := ih ht
      exact ⟨l', hl', hs.trans (suffix_cons ..)⟩

theorem mem_iff (h : Chain up s l) : t ∈ l ↔ Relation.ReflTransGen (Up up) s t := by
  constructor
  · intro ht
    induction h with
    | top _ =>
      obtain rfl := mem_singleton.mp ht
      exact .refl
    | step hu _ ih =>
      rcases mem_cons.mp ht with rfl | ht
      · exact .refl
      · exact .head hu (ih ht)
  · intro ht
    induction ht using Relation.ReflTransGen.head_induction_on generalizing l with
    | refl => exact h.head_mem
    | head hu _ ih =>
      obtain ⟨l', rfl, hl⟩ := h.of_up hu
      exact mem_cons_of_mem _ (ih hl)

/-- A chain that goes on does not come back. -/
theorem notMem_of_up (h : Chain up u l) (hu : Up up s u) : s ∉ l := by
  intro hs
  obtain ⟨l', hl', hsuf⟩ := h.suffix hs
  have hlen := hsuf.length_le
  rw [hl'.unique (.step hu h), length_cons] at hlen
  omega

theorem nodup (h : Chain up s l) : l.Nodup := by
  induction h with
  | top _ => simp
  | step hu hl ih => exact nodup_cons.mpr ⟨hl.notMem_of_up hu, ih⟩

theorem antisymm (h : Chain up s l) (hst : Relation.ReflTransGen (Up up) s t)
    (hts : Relation.ReflTransGen (Up up) t s) : s = t := by
  cases hst using Relation.ReflTransGen.head_induction_on with
  | refl => rfl
  | head hu hut =>
    obtain ⟨l', rfl, hl⟩ := h.of_up hu
    exact absurd (hl.mem_iff.mpr (hut.trans hts)) (hl.notMem_of_up hu)

theorem not_above_itself (h : Chain up s l) : ¬ Relation.TransGen (Up up) s s := by
  intro hs
  obtain ⟨u, hu, hus⟩ := Relation.TransGen.head'_iff.mp hs
  obtain ⟨l', rfl, hl⟩ := h.of_up hu
  exact hl.notMem_of_up hu (hl.mem_iff.mpr hus)

/-- The part of a chain before one of its items. -/
theorem mem_takeWhile (h : Chain up s l) (hu : Relation.ReflTransGen (Up up) s u) :
    t ∈ l.takeWhile (· != u) ↔
    Relation.ReflTransGen (Up up) s t ∧ Relation.ReflTransGen (Up up) t u ∧ t ≠ u := by
  induction h with
  | top hs =>
    obtain rfl := mem_singleton.mp ((Chain.top hs).mem_iff.mpr hu)
    constructor
    · intro ht
      simp at ht
    · rintro ⟨hst, hts, hne⟩
      exact absurd ((Chain.top hs).antisymm hst hts).symm hne
  | step hw hl ih =>
    rename_i s w l
    by_cases hsu : s = u
    · subst hsu
      constructor
      · intro ht
        simp at ht
      · rintro ⟨hst, hts, hne⟩
        exact absurd ((Chain.step hw hl).antisymm hst hts).symm hne
    · have hwu : Relation.ReflTransGen (Up up) w u := by
        rcases hu.cases_head with rfl | ⟨w', hw', hwu⟩
        · exact absurd rfl hsu
        · cases up_unique up hw hw'
          exact hwu
      have htake : (s :: l).takeWhile (· != u) = s :: l.takeWhile (· != u) := by
        simp [hsu]
      rw [htake, mem_cons, ih hwu]
      constructor
      · rintro (rfl | ⟨hwt, htu, hne⟩)
        · exact ⟨.refl, hu, hsu⟩
        · exact ⟨.head hw hwt, htu, hne⟩
      · rintro ⟨hst, htu, hne⟩
        rcases hst.cases_head with rfl | ⟨w', hw', hwt⟩
        · exact .inl rfl
        · cases up_unique up hw hw'
          exact .inr ⟨hwt, htu, hne⟩

/-- A chain of items below a bound has at most as many items. -/
theorem length_le {n : Nat} (h : Chain up s l) (hl : ∀ t ∈ l, t < n) : l.length ≤ n := by
  have hsub : l ⊆ List.range n := fun t ht => mem_range.mpr (hl t ht)
  simpa using (subperm_of_subset h.nodup hsub).length_le

theorem congr {up' : Nat → Option Nat} (h : ∀ s, up' s = up s) (hl : Chain up s l) :
    Chain up' s l := by
  rwa [show up' = up from funext h]

end Chain

end Loom
