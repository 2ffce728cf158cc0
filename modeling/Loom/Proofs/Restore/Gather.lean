import Loom.Proofs.Cursor
import Loom.Proofs.Restore.Coordinates

/-!
Tokens and comments of a restored script.

Each task takes the items in its wrapper and keeps those in its fragments; the items that no task
takes are moved if they lie on copied text. So the fate of an item depends on its range and on the
first task that takes it.
-/

open List

namespace Loom

open VirtualScript Fragment Option

variable {source : Text} {woven : Woven} {scripts : List Fragment} {f : Fragment} {b : Breakpoint}
  {o : Nat}

/-- An item of a wrapper, moved to the source if it is in a fragment. -/
def Task.spot? {α : Type} [Ranged α] (t : Task) (coords : Coordinates) (x : α) : Option α :=
  (t.fragments.find? (·.generated.contains (Ranged.range x))).map fun f =>
    Ranged.place x ((Ranged.range x).shifted f.delta) coords

namespace VirtualScript

variable {α : Type} [Ranged α]

/-- An item of no wrapper, moved to the source if it is on copied text. -/
def leftover? (v : VirtualScript) (coords : Coordinates) (x : α) : Option α := do
  let start ← v.mapStart (Ranged.range x).start
  let stop ← v.mapEnd (Ranged.range x).stop
  if stop < start || stop - start ≠ (Ranged.range x).length then none
  else some (Ranged.place x ⟨start, stop⟩ coords)

/-- What becomes of an item when the tasks are undone in this order. -/
def fate (v : VirtualScript) (coords : Coordinates) (ts : List Task) (x : α) : Option α :=
  match ts.find? (Cursor.within ·.range x) with
  | some t => t.spot? coords x
  | none => v.leftover? coords x

section

variable (v : VirtualScript) (coords : Coordinates) (ts : List Task)

theorem gather_perm {items : List α} (hsorted : Cursor.Sorted items) (acc : List α) :
    ((ts.foldl (Task.gather coords) (⟨items⟩, acc)).2 ++
      v.remapLeftovers coords (ts.foldl (Task.gather coords) (⟨items⟩, acc)).1.remaining).Perm
        (acc ++ items.filterMap (v.fate coords ts)) := by
  induction ts generalizing items acc with
  | nil => exact .refl _
  | cons t ts ih =>
    have hgather : Task.gather coords (⟨items⟩, acc) t = (⟨items.filter (!Cursor.within t.range ·)⟩,
          acc ++ (items.filter (Cursor.within t.range)).filterMap (t.spot? coords)) := by
      unfold Task.gather
      rw [hsorted.takeWithin]
      rfl
    have htaken : (items.filter (Cursor.within t.range)).filterMap (t.spot? coords) =
        (items.filter (Cursor.within t.range)).filterMap (v.fate coords (t :: ts)) := by
      refine filterMap_congr fun x hx => ?_
      have hwithin := (mem_filter.mp hx).2
      simp [fate, hwithin]
    have hothers : (items.filter (!Cursor.within t.range ·)).filterMap (v.fate coords ts) =
        (items.filter (!Cursor.within t.range ·)).filterMap (v.fate coords (t :: ts)) := by
      refine filterMap_congr fun x hx => ?_
      have hwithin : Cursor.within t.range x = false := by simpa using (mem_filter.mp hx).2
      simp [fate, hwithin]
    rw [foldl_cons, hgather]
    refine (ih (hsorted.filter _) _).trans ?_
    rw [htaken, hothers, append_assoc, ← filterMap_append]
    exact ((filter_append_perm (Cursor.within t.range) items).filterMap _).append_left acc

/-- The restored items are those that the fate of each item gives, in the order of their starts. -/
theorem collect_perm (items : List α) :
    (v.collect coords ts items).Perm (items.filterMap (v.fate coords ts)) := by
  refine (Cursor.sortByStart_perm _).trans ?_
  exact (v.gather_perm coords ts (Cursor.sortByStart_sorted items) []).trans
    ((Cursor.sortByStart_perm items).filterMap _)

end

/-! Copied text. -/

variable {v : VirtualScript} {k : Nat}

theorem mapStart_eq_some (h : v.mapStart o = some k) :
    ∃ b ∈ v.breakpoints, b.generated ≤ o ∧ o < b.stop ∧ k = b.toSource o := by
  obtain ⟨b, hfind, rfl⟩ := map_eq_some_iff.mp h
  obtain ⟨hb, hge, hle⟩ := find?_and_eq_some hfind
  exact ⟨b, hb, hge, hle, rfl⟩

theorem mapEnd_eq_some (h : v.mapEnd o = some k) :
    ∃ b ∈ v.breakpoints, b.generated < o ∧ o ≤ b.stop ∧ k = b.toSource o := by
  obtain ⟨b, hfind, rfl⟩ := map_eq_some_iff.mp h
  obtain ⟨hb, hge, hle⟩ := find?_and_eq_some hfind
  exact ⟨b, hb, hge, hle, rfl⟩

end VirtualScript

theorem Fragment.breakpoint_stop {f : Fragment} (h : f.generated.start ≤ f.generated.stop) :
    f.breakpoint.stop = f.generated.stop := by
  simp only [breakpoint, Breakpoint.stop]
  omega

namespace Layout

variable {f' : Fragment} {b' : Breakpoint}

variable (h : Layout source woven scripts)

include h

/-- Copies that touch are the same copy. -/
theorem fragment_eq (hf : f ∈ scripts ++ taskFragments woven.script.tasks)
    (hf' : f' ∈ scripts ++ taskFragments woven.script.tasks) (htouch : ¬ f.Apart f') : f = f' := by
  rcases mem_append.mp hf with hscript | htask <;> rcases mem_append.mp hf' with hscript' | htask'
  · by_contra hne
    exact htouch (h.scripts_apart.forall hscript hscript' hne)
  · exact absurd (h.script_apart hscript htask') htouch
  · exact absurd (h.script_apart hscript' htask).symm htouch
  · obtain ⟨t, ht, hf⟩ := mem_taskFragments.mp htask
    obtain ⟨t', ht', hf'⟩ := mem_taskFragments.mp htask'
    exact (h.eq_of_touch ht ht' hf hf' htouch).2

variable (hb : b ∈ woven.script.breakpoints)

include hb

theorem breakpoint_eq (hb' : b' ∈ woven.script.breakpoints) (hle : b.generated ≤ b'.stop)
    (hle' : b'.generated ≤ b.stop) : b = b' := by
  obtain ⟨f, hf, hlt, rfl⟩ := (h.breakpoints b).mp hb
  obtain ⟨f', hf', hlt', rfl⟩ := (h.breakpoints b').mp hb'
  rw [breakpoint_stop hlt'.le] at hle
  rw [breakpoint_stop hlt.le] at hle'
  rw [h.fragment_eq hf hf' ?_]
  rintro (happart | happart)
  · exact absurd hle' (not_le.mpr happart)
  · exact absurd hle (not_le.mpr happart)

theorem mapStart_eq (hle : b.generated ≤ o) (hlt : o < b.stop) :
    woven.script.mapStart o = some (b.toSource o) := by
  cases hmap : woven.script.mapStart o with
  | none =>
    rw [mapStart, map_eq_none_iff, find?_eq_none] at hmap
    exact absurd (hmap b hb) (by simp [hle, hlt])
  | some k =>
    obtain ⟨b', hb', hle', hlt', rfl⟩ := mapStart_eq_some hmap
    rw [h.breakpoint_eq hb hb' (by omega) (by omega)]

theorem mapEnd_eq (hlt : b.generated < o) (hle : o ≤ b.stop) :
    woven.script.mapEnd o = some (b.toSource o) := by
  cases hmap : woven.script.mapEnd o with
  | none =>
    rw [mapEnd, map_eq_none_iff, find?_eq_none] at hmap
    exact absurd (hmap b hb) (by simp [hle, hlt])
  | some k =>
    obtain ⟨b', hb', hlt', hle', rfl⟩ := mapEnd_eq_some hmap
    rw [h.breakpoint_eq hb hb' (by omega) (by omega)]

end Layout

/-- The affine image of a part of a copy. -/
theorem Fragment.Copied.shifted_eq {f : Fragment} {source text : Text} {g : Range}
    (h : f.Copied source text)
    (hsource : Text.byteSize source < Range.wordModulus) (hinside : f.generated.contains g = true)
    (hord : g.start ≤ g.stop) :
    g.shifted f.delta = ⟨f.breakpoint.toSource g.start, f.breakpoint.toSource g.stop⟩ := by
  have himage := h.image hsource hinside hord
  have hstart := himage.start
  have hstop := himage.stop
  have hdelta : f.delta = f.generated.start - f.source.start := rfl
  rw [Range.contains_iff] at hinside
  generalize g.shifted f.delta = r at hstart hstop
  obtain ⟨a, b⟩ := r
  simp only [breakpoint, Breakpoint.toSource, Range.mk.injEq] at hstart hstop ⊢
  omega

/-- Tasks in an order in which no task comes after one that it is inside of. -/
def Inward (ts : List Task) : Prop :=
  ts.Pairwise fun t t' => ¬ (t.range.start < t'.range.start ∧ t'.range.stop < t.range.stop)

namespace Layout

variable {ts : List Task} {t t0 : Task} {α : Type} [Ranged α] {x : α} {coords : Coordinates}

/-- No wrapper takes an item of a copy that is outside of the wrapper. -/
theorem not_within_clear (hclear : f.ClearOf t)
    (hinside : f.generated.contains (Ranged.range x) = true)
    (hlt : Cursor.start x < Cursor.stop x) : Cursor.within t.range x ≠ true := by
  rw [Cursor.contains_iff] at hinside
  rw [Ne, Cursor.within_iff]
  rcases hclear with hclear | hclear <;> omega

/-- An item in a fragment is taken by the task of the fragment. -/
theorem find_task (h : Layout source woven scripts) (hperm : ts.Perm woven.script.tasks)
    (hinward : Inward ts) (ht0 : t0 ∈ woven.script.tasks) (hf : f ∈ t0.fragments)
    (hinside : f.generated.contains (Ranged.range x) = true)
    (hlt : Cursor.start x < Cursor.stop x) : ts.find? (Cursor.within ·.range x) = some t0 := by
  have hframed := h.framed t0 ht0
  have hwithin : Cursor.within t0.range x = true := by
    have hstart := hframed.start_lt f hf
    have hstop := hframed.lt_stop f hf
    rw [Cursor.contains_iff] at hinside
    rw [Cursor.within_iff]
    omega
  have hmem : t0 ∈ ts := hperm.mem_iff.mpr ht0
  cases hfind : ts.find? (Cursor.within ·.range x) with
  | none => exact absurd hwithin (by simpa using find?_eq_none.mp hfind t0 hmem)
  | some t =>
    obtain ⟨htaken, before, after, rfl, hbefore⟩ := find?_eq_some_iff_append.mp hfind
    by_contra hne
    have hne : t ≠ t0 := fun heq => hne (congrArg some heq)
    have ht : t ∈ woven.script.tasks := hperm.mem_iff.mp (by simp)
    rcases h.order.forall ht ht0 hne with hle | hle
    · -- The task is not outside and not inside of the wrapper of the fragment.
      rcases hle with hle | ⟨-, -, hclear⟩
      · rw [Cursor.within_iff] at hwithin htaken
        omega
      · exact not_within_clear (hclear f hf) hinside hlt htaken
    · rcases hle with hle | ⟨hstart, hstop, -⟩
      · rw [Cursor.within_iff] at hwithin htaken
        omega
      · -- An enclosing task comes later.
        have hlater : t0 ∈ after := by
          rcases mem_append.mp hmem with hmem | hmem
          · exact absurd hwithin (by simpa using hbefore t0 hmem)
          · exact (mem_cons.mp hmem).resolve_left (Ne.symm hne)
        exact (pairwise_cons.mp (pairwise_append.mp hinward).2.1).1 t0 hlater ⟨hstart, hstop⟩

/-- An item on one copied part goes to where the part was copied from. -/
theorem fate_copied (h : Layout source woven scripts)
    (hsource : Text.byteSize source < Range.wordModulus)
    (hperm : ts.Perm woven.script.tasks) (hinward : Inward ts) (hb : b ∈ woven.script.breakpoints)
    (hstart : b.generated ≤ Cursor.start x) (hlt : Cursor.start x < Cursor.stop x)
    (hstop : Cursor.stop x ≤ b.stop) : woven.script.fate coords ts x =
      some (Ranged.place x ⟨b.toSource (Cursor.start x), b.toSource (Cursor.stop x)⟩ coords) := by
  have hbreakpoint := hb
  obtain ⟨f, hf, hproper, rfl⟩ := (h.breakpoints b).mp hb
  rw [breakpoint_stop hproper.le] at hstop
  have hgen : f.breakpoint.generated = f.generated.start := rfl
  have hinside := Cursor.contains_iff.mpr ⟨hstart, hstop⟩
  rcases mem_append.mp hf with hscript | htask
  · -- No wrapper takes what is in a script block.
    have hnone : ts.find? (Cursor.within ·.range x) = none := by
      rw [find?_eq_none]
      intro t ht
      exact not_within_clear (h.scripts_clear f hscript t (hperm.mem_iff.mp ht)) hinside hlt
    have hsizes := (h.copied f hf).sizes
    have hend : Cursor.stop x ≤ f.breakpoint.stop := by
      rw [breakpoint_stop hproper.le]
      exact hstop
    have hlength : (Ranged.range x).length = Cursor.stop x - Cursor.start x := by
      have hword : (Range.toWord (Cursor.stop x - Cursor.start x) : Int) = _ :=
        Range.toWord_of_lt (by omega) (by omega)
      change Range.toWord (Cursor.stop x - Cursor.start x) = _
      omega
    have hmapStart := h.mapStart_eq hbreakpoint hstart (hlt.trans_le hend)
    have hmapEnd := h.mapEnd_eq hbreakpoint (hstart.trans_lt hlt) hend
    simp only [fate, hnone, leftover?]
    change (do
      let start ← woven.script.mapStart (Cursor.start x)
      let stop ← woven.script.mapEnd (Cursor.stop x)
      if stop < start || stop - start ≠ (Ranged.range x).length then none
      else some (Ranged.place x ⟨start, stop⟩ coords)) = _
    rw [hmapStart, hmapEnd]
    simp only [bind_eq_bind, bind_some, Breakpoint.toSource]
    rw [if_neg]
    simp only [Bool.or_eq_true, decide_eq_true_eq, not_or, Decidable.not_not, not_lt]
    omega
  · obtain ⟨t0, ht0, hf0⟩ := mem_taskFragments.mp htask
    have hfrag : t0.fragments.find? (·.generated.contains (Ranged.range x)) = some f := by
      cases hfind : t0.fragments.find? (·.generated.contains (Ranged.range x)) with
      | none => exact absurd hinside (by simpa using find?_eq_none.mp hfind f hf0)
      | some f' =>
        have hinside' := find?_some hfind
        have hf' := mem_of_find?_eq_some hfind
        rw [(h.eq_of_touch ht0 ht0 hf0 hf' ?_).2]
        rw [Cursor.contains_iff] at hinside hinside'
        rintro (hapart | hapart) <;> omega
    simp only [fate, h.find_task hperm hinward ht0 hf0 hinside hlt, Task.spot?, hfrag,
      map_some]
    rw [(h.copied f hf).shifted_eq hsource hinside hlt.le]
    rfl

end Layout

end Loom
