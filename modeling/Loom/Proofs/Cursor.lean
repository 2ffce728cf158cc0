import Loom.Cursor
import Mathlib.Data.List.TakeWhile

/-!
Taking items out of a cursor range by range.

A cursor looks only at the items that start in a range. As its items are sorted by their starts, it
takes out what a filter of all of them would, and every item is taken by the first range that has it
inside.
-/

open List

namespace Loom

/-- Filtering a list by what only holds in its middle. -/
theorem filter_middle {α : Type} (before window after : List α) {p q : α → Bool}
    (hbefore : ∀ x ∈ before, p x = false) (hwindow : ∀ x ∈ window, p x = q x)
    (hafter : ∀ x ∈ after, p x = false) : (before ++ window ++ after).filter p = window.filter q ∧
      (before ++ window ++ after).filter (!p ·) = before ++ window.filter (!q ·) ++ after := by
  constructor
  · rw [filter_append, filter_append, filter_congr hwindow,
      (filter_eq_nil_iff).mpr (by simpa using hbefore),
      (filter_eq_nil_iff (l := after)).mpr (by simpa using hafter), nil_append, append_nil]
  · have hwindow' : ∀ x ∈ window, (!p x) = !q x := fun x hx => by rw [hwindow x hx]
    rw [filter_append, filter_append, filter_congr hwindow',
      (filter_eq_self).mpr (by simpa using hbefore),
      (filter_eq_self (l := after)).mpr (by simpa using hafter)]

theorem pairwise_mergeSort_key {α : Type} (key : α → Nat) (l : List α) :
    (l.mergeSort fun x y => key x ≤ key y).Pairwise fun x y => key x ≤ key y := by
  have hsorted := @pairwise_mergeSort α (fun x y => key x ≤ key y)
    (fun x y z hxy hyz => by simp only [decide_eq_true_eq] at *; omega)
    (fun x y => by simp only [Bool.or_eq_true, decide_eq_true_eq]; omega) l
  exact hsorted.imp of_decide_eq_true

namespace Cursor

variable {α : Type} [Ranged α] {l : List α} {r : Range} {k : Nat}

def Sorted (l : List α) : Prop := l.Pairwise fun x y => start x ≤ start y

theorem sortByStart_sorted (l : List α) : Sorted (sortByStart l) := pairwise_mergeSort_key start l

theorem sortByStart_perm (l : List α) : (sortByStart l).Perm l := mergeSort_perm ..

/-- Whether an item is taken out with a range. -/
def within (r : Range) (x : α) : Bool := r.start ≤ start x && start x < r.stop && stop x ≤ r.stop

theorem within_iff {x : α} :
    within r x = true ↔ r.start ≤ start x ∧ start x < r.stop ∧ stop x ≤ r.stop := by
  simp [within, and_assoc]

theorem contains_iff {x : α} :
    r.contains (Ranged.range x) = true ↔ r.start ≤ start x ∧ stop x ≤ r.stop := by
  simp [Range.contains, start, stop]

theorem Sorted.le_of_mem_dropWhile (h : Sorted l) :
    ∀ x ∈ l.dropWhile (start · < k), k ≤ start x := by
  induction l with
  | nil => simp
  | cons y l ih =>
    obtain ⟨hle, htail⟩ := pairwise_cons.mp h
    intro x hx
    by_cases hy : start y < k
    · rw [dropWhile_cons_of_pos (by simpa using hy)] at hx
      exact ih htail x hx
    · rw [dropWhile_cons_of_neg (by simpa using hy)] at hx
      rcases mem_cons.mp hx with rfl | hx
      · omega
      · have := hle x hx
        omega

/-- Taking out a range splits sorted items. -/
theorem Sorted.takeWithin (h : Sorted l) :
    (⟨l⟩ : Cursor α).takeWithin r = (l.filter (within r), ⟨l.filter (!within r ·)⟩) := by
  have hrest := h.le_of_mem_dropWhile (k := r.start)
  have hsorted : Sorted (l.dropWhile (start · < r.start)) :=
    List.Pairwise.sublist (dropWhile_sublist _) h
  have hafter := hsorted.le_of_mem_dropWhile (k := r.stop)
  have hsplit : l.takeWhile (start · < r.start) ++ (l.dropWhile (start · < r.start)).takeWhile
      (start · < r.stop) ++
        (l.dropWhile (start · < r.start)).dropWhile (start · < r.stop) = l := by
    rw [append_assoc, takeWhile_append_dropWhile, takeWhile_append_dropWhile]
  have hmiddle := filter_middle (l.takeWhile (start · < r.start))
    ((l.dropWhile (start · < r.start)).takeWhile (start · < r.stop))
    ((l.dropWhile (start · < r.start)).dropWhile (start · < r.stop))
    (p := within r) (q := fun x => decide (stop x ≤ r.stop)) ?_ ?_ ?_
  · rw [hsplit] at hmiddle
    rw [hmiddle.1, hmiddle.2, Cursor.takeWithin]
    simp only [← not_le, decide_not]
  · intro x hx
    have hlt := mem_takeWhile_imp hx
    simp only [decide_eq_true_eq] at hlt
    simp [within, not_le.mpr hlt]
  · intro x hx
    have hlt := mem_takeWhile_imp hx
    have hle := hrest x ((takeWhile_sublist _).subset hx)
    simp [within, hlt, hle]
  · intro x hx
    simp [within, not_lt.mpr (hafter x hx)]

theorem Sorted.filter (h : Sorted l) (p : α → Bool) : Sorted (l.filter p) :=
  List.Pairwise.filter p h

/-- Takes out ranges one after another: what each of them gives, and the items that are left. -/
def takeAll (c : Cursor α) : List Range → List (List α) × Cursor α
  | [] => ([], c)
  | r :: rs => ((c.takeWithin r).1 :: ((c.takeWithin r).2.takeAll rs).1,
    ((c.takeWithin r).2.takeAll rs).2)

theorem length_takeAll (c : Cursor α) (rs : List Range) : (c.takeAll rs).1.length = rs.length := by
  induction rs generalizing c with
  | nil => rfl
  | cons r rs ih => simp [takeAll, ih]

theorem take_takeAll (c : Cursor α) (rs : List Range) (i : Nat) :
    (c.takeAll rs).1.take i = (c.takeAll (rs.take i)).1 := by
  induction rs generalizing c i with
  | nil => simp [takeAll]
  | cons r rs ih =>
    cases i with
    | zero => rfl
    | succ i => simp [takeAll, ih]

section

variable (h : Sorted l) (rs : List Range)

include h

theorem Sorted.takeAll_cons : (⟨l⟩ : Cursor α).takeAll (r :: rs) =
    (l.filter (within r) :: ((⟨l.filter (!within r ·)⟩ : Cursor α).takeAll rs).1,
        ((⟨l.filter (!within r ·)⟩ : Cursor α).takeAll rs).2) := by
  rw [takeAll, h.takeWithin]

/-- The items that a range gives are inside it, and inside no range before. -/
theorem Sorted.getElem?_takeAll (i : Nat) : ((⟨l⟩ : Cursor α).takeAll rs).1[i]? =
    rs[i]?.map fun r => l.filter fun x => within r x && !(rs.take i).any (within · x) := by
  induction rs generalizing l i with
  | nil => rfl
  | cons r rs ih =>
    rw [h.takeAll_cons]
    cases i with
    | zero => simp
    | succ i => simp [ih (h.filter _), filter_filter, Bool.and_comm, Bool.and_left_comm]

theorem Sorted.mem_flatten_takeAll {x : α} :
    x ∈ ((⟨l⟩ : Cursor α).takeAll rs).1.flatten ↔ x ∈ l ∧ ∃ r ∈ rs, within r x = true := by
  induction rs generalizing l with
  | nil => simp [takeAll]
  | cons r rs ih =>
    rw [h.takeAll_cons, flatten_cons, mem_append, ih (h.filter _)]
    cases hr : within r x <;> simp [hr]

theorem Sorted.takeAll_perm :
    (((⟨l⟩ : Cursor α).takeAll rs).1.flatten ++ ((⟨l⟩ : Cursor α).takeAll rs).2.remaining).Perm
      l := by
  induction rs generalizing l with
  | nil => exact .refl _
  | cons r rs ih =>
    rw [h.takeAll_cons, flatten_cons, append_assoc]
    exact ((ih (h.filter _)).append_left _).trans (filter_append_perm (within r) l)

theorem Sorted.remaining_takeAll : Sorted ((⟨l⟩ : Cursor α).takeAll rs).2.remaining := by
  induction rs generalizing l with
  | nil => exact h
  | cons r rs ih =>
    rw [h.takeAll_cons]
    exact ih (h.filter _)

end

/-- An item with text is taken by the ranges that it is inside of. -/
theorem within_eq_contains {x : α} (hx : start x < stop x) :
    within r x = r.contains (Ranged.range x) := by
  rw [Bool.eq_iff_iff, within_iff, contains_iff]
  omega

/-- Ranges that are taken out one after another part the items: each gives the items inside it that
were not given before, and no item is lost. -/
theorem takeAll_partitions (items : List α) (hitems : ∀ x ∈ items, start x < stop x)
    (rs : List Range) :
    (∀ i r, rs[i]? = some r → ∃ taken, ((ofList items).takeAll rs).1[i]? = some taken ∧
      Sorted taken ∧
        (taken = (sortByStart items).filter fun x =>
          r.contains (Ranged.range x) && !(rs.take i).any (·.contains (Ranged.range x))) ∧
        ∀ x, x ∈ taken ↔ x ∈ items ∧ r.contains (Ranged.range x) = true ∧
          x ∉ (((ofList items).takeAll rs).1.take i).flatten) ∧
      ((ofList items).takeAll rs).1.length = rs.length ∧
      (((ofList items).takeAll rs).1.flatten ++ ((ofList items).takeAll rs).2.remaining).Perm items ∧
      Sorted ((ofList items).takeAll rs).2.remaining := by
  have hsorted := sortByStart_sorted items
  have hmem : ∀ x, x ∈ sortByStart items ↔ x ∈ items := fun x => (sortByStart_perm items).mem_iff
  refine ⟨fun i r hr => ?_, length_takeAll _ rs,
    (hsorted.takeAll_perm rs).trans (sortByStart_perm items), hsorted.remaining_takeAll rs⟩
  have htaken := hsorted.getElem?_takeAll rs i
  rw [hr] at htaken
  refine ⟨_, htaken, hsorted.filter _, ?_, fun x => ?_⟩
  · refine filter_congr fun x hx => ?_
    have hin := fun r : Range => within_eq_contains (r := r) (hitems x ((hmem x).mp hx))
    simp only [hin]
  · rw [take_takeAll, ofList, hsorted.mem_flatten_takeAll, mem_filter, hmem]
    refine and_congr_right fun hx => ?_
    rw [within_eq_contains (hitems x hx)]
    simp [hx]

/-- Of two ranges that overlap, the second gives what the first has left in it. -/
theorem takeAll_partitions_overlapping : ∃ items : List Token, (∀ x ∈ items, start x < stop x) ∧
    items.map (·.range) = [⟨4, 6⟩, ⟨0, 2⟩, ⟨3, 5⟩, ⟨7, 9⟩] ∧
      (((ofList items).takeAll [⟨3, 5⟩, ⟨0, 6⟩]).1.flatten ++
        ((ofList items).takeAll [⟨3, 5⟩, ⟨0, 6⟩]).2.remaining).Perm items :=
  let items := [⟨4, 6⟩, ⟨0, 2⟩, ⟨3, 5⟩, ⟨7, 9⟩].map fun r => { (default : Token) with range := r }
  ⟨items, by decide, rfl, (takeAll_partitions items (by decide) _).2.2.1⟩

end Cursor

end Loom
