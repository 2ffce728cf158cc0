import Loom.Proofs.Draft.Mapping

/-!
Where a message about a place of a virtual script belongs in the source.

A byte that is a copy has an origin. For scaffolding, the copied text before it is as near as a
message can come; at the very start of a script there is only copied text after it, or none at all.
-/

open List

namespace Loom

open Breakpoint VirtualScript

/-- The source offset `i` for a message about the offset `n` of a virtual script whose bytes have
the given origins. -/
inductive VirtualScript.Reported (v : VirtualScript) (origins : List (Option Nat)) (n : Nat) :
    Nat → Prop
  /-- On copied text, the origin of the byte. -/
  | copied {p : Nat} (h : origins[n]? = some (some p)) : v.Reported origins n p
  /-- Else the end of the last copied part that ends by then. -/
  | after {b : Breakpoint} (hnone : ∀ p, origins[n]? ≠ some (some p)) (hb : b ∈ v.breakpoints)
      (hle : b.stop ≤ n) (hlast : ∀ x ∈ v.breakpoints, x.stop ≤ n → x.stop ≤ b.stop) :
      v.Reported origins n (b.source + b.length)
  /-- Else the start of the first copied part. -/
  | before {b : Breakpoint} {rest : List Breakpoint} (hnone : ∀ p, origins[n]? ≠ some (some p))
      (hfirst : v.breakpoints = b :: rest) (hlt : ∀ x ∈ v.breakpoints, n < x.stop) :
      v.Reported origins n b.source
  | nothing (h : v.breakpoints = []) : v.Reported origins n 0

namespace Breakpoint

variable {bs : List Breakpoint} {b : Breakpoint} {n : Nat}

/-- From behind, the first part that ends by an offset is the last one to do so. -/
theorem stop_le_of_find?_reverse (h : bs.Pairwise Before)
    (hfind : bs.reverse.find? (·.stop ≤ n) = some b)
    {x : Breakpoint} (hx : x ∈ bs) (hxn : x.stop ≤ n) : x.stop ≤ b.stop := by
  obtain ⟨-, later, earlier, hsplit, hlater⟩ := find?_eq_some_iff_append.mp hfind
  have hbs : bs = (earlier.reverse ++ [b]) ++ later.reverse := by
    rw [← reverse_reverse bs, hsplit]
    simp
  rw [hbs] at h hx
  rcases mem_append.mp hx with hx | hx
  · rcases mem_append.mp hx with hx | hx
    · have hbefore : x.Before b := (pairwise_append.mp (pairwise_append.mp h).1).2.2 x hx b (by simp)
      exact hbefore.trans (Nat.le_add_right ..)
    · rw [mem_singleton.mp hx]
  · have hnot := hlater x (mem_reverse.mp hx)
    simp only [Bool.not_eq_true', decide_eq_false_iff_not] at hnot
    exact absurd hxn hnot

/-- Parts that are not empty differ in their ends. -/
theorem eq_of_stop_eq (h : bs.Pairwise Before) (hproper : ∀ x ∈ bs, 0 < x.length) {x : Breakpoint}
    (hx : x ∈ bs) (hb : b ∈ bs) (heq : x.stop = b.stop) : x = b := by
  have hxpos := hproper x hx
  have hbpos := hproper b hb
  refine eq_of_meet h hx hb ?_ ?_ <;> simp only [stop] at heq ⊢ <;> omega

theorem Copied.source_le {source text : Text} (h : b.Copied source text) :
    b.source + b.length ≤ Text.byteSize source := by
  obtain ⟨part, hsource, -⟩ := h
  obtain ⟨-, pre, post, rfl, hpre, hsize⟩ := Text.slice?_eq_some.mp hsource
  simp only [Text.byteSize_append] at hpre hsize ⊢
  omega

end Breakpoint

section ErrorOffset

variable {v : VirtualScript} {n p : Nat} {b : Breakpoint}

theorem errorOffset_of_copied (hmap : v.mapStart n = some p) : v.errorOffset n = p := by
  simp [errorOffset, hmap]

theorem errorOffset_of_after (hmap : v.mapStart n = none)
    (hfind : v.breakpoints.reverse.find? (·.stop ≤ n) = some b) :
    v.errorOffset n = b.source + b.length := by
  simp [errorOffset, hmap, hfind]

theorem errorOffset_of_before (hmap : v.mapStart n = none)
    (hfind : v.breakpoints.reverse.find? (·.stop ≤ n) = none) :
    v.errorOffset n = (v.breakpoints.head?.map (·.source)).getD 0 := by
  simp [errorOffset, hmap, hfind]

end ErrorOffset

namespace Draft.Traced

variable {d : Draft} {origins : List (Option Nat)} {n i : Nat}

variable (h : d.Traced origins)

include h

theorem mapStart_eq_none (hnone : ∀ p, origins[n]? ≠ some (some p)) : d.finish.mapStart n = none :=
  Option.eq_none_iff_forall_ne_some.mpr fun p hp => hnone p ((h.mapStart_iff n p).mp hp)

/-- Only one offset is right for a message. -/
theorem eq_errorOffset (hreported : d.finish.Reported origins n i) :
    i = d.finish.errorOffset n := by
  cases hreported with
  | copied hp => exact (errorOffset_of_copied ((h.mapStart_iff n i).mpr hp)).symm
  | @after b hn hb hle hlast =>
    have hfind : d.finish.breakpoints.reverse.find? (·.stop ≤ n) = some b := by
      cases hfind : d.finish.breakpoints.reverse.find? (·.stop ≤ n) with
      | none =>
        have hnot := find?_eq_none.mp hfind b (mem_reverse.mpr hb)
        exact absurd hle (by simpa using hnot)
      | some x =>
        have hx := mem_reverse.mp (mem_of_find?_eq_some hfind)
        have hxn : x.stop ≤ n := by simpa using find?_some hfind
        have hge := stop_le_of_find?_reverse h.ordered hfind hb hle
        rw [eq_of_stop_eq h.ordered h.proper hx hb (le_antisymm (hlast x hx hxn) hge)]
    exact (errorOffset_of_after (h.mapStart_eq_none hn) hfind).symm
  | @before b rest hn hfirst hlt =>
    have hfind : d.finish.breakpoints.reverse.find? (·.stop ≤ n) = none := by
      rw [find?_eq_none]
      intro x hx
      simpa using hlt x (mem_reverse.mp hx)
    rw [errorOffset_of_before (h.mapStart_eq_none hn) hfind, hfirst]
    rfl
  | nothing hempty =>
    rw [errorOffset_of_before, hempty]
    · rfl
    · simp [mapStart, hempty]
    · simp [hempty]

theorem reported_errorOffset : d.finish.Reported origins n (d.finish.errorOffset n) := by
  cases hmap : d.finish.mapStart n with
  | some p =>
    rw [errorOffset_of_copied hmap]
    exact .copied ((h.mapStart_iff n p).mp hmap)
  | none =>
    have hn : ∀ p, origins[n]? ≠ some (some p) := by
      intro p hp
      rw [(h.mapStart_iff n p).mpr hp] at hmap
      cases hmap
    cases hfind : d.finish.breakpoints.reverse.find? (·.stop ≤ n) with
    | some b =>
      rw [errorOffset_of_after hmap hfind]
      refine .after hn (mem_reverse.mp (mem_of_find?_eq_some hfind)) ?_ fun x hx hxn => ?_
      · simpa using find?_some hfind
      · exact stop_le_of_find?_reverse h.ordered hfind hx hxn
    | none =>
      rw [errorOffset_of_before hmap hfind]
      cases hbs : d.finish.breakpoints with
      | nil => exact .nothing hbs
      | cons b rest =>
        refine .before hn hbs fun x hx => ?_
        simpa using find?_eq_none.mp hfind x (mem_reverse.mpr hx)

/-- A message is placed inside the source. -/
theorem errorOffset_le : d.finish.errorOffset n ≤ Text.byteSize d.source := by
  have hsource {b : Breakpoint} (hb : b ∈ d.breakpoints) : b.source + b.length ≤
      Text.byteSize d.source :=
    (h.copied b hb).source_le
  generalize hi : d.finish.errorOffset n = i
  have hreported : d.finish.Reported origins n i := hi ▸ h.reported_errorOffset
  cases hreported with
  | copied hp =>
    obtain ⟨b, hb, hge, hlt, rfl⟩ := (h.sends n i).mp hp
    have hle := hsource hb
    simp only [stop, toSource] at hlt ⊢
    omega
  | after _ hb => exact hsource hb
  | @before b rest _ hfirst =>
    have hb : b ∈ d.breakpoints := by
      show b ∈ d.finish.breakpoints
      rw [hfirst]
      exact mem_cons_self
    exact (Nat.le_add_right ..).trans (hsource hb)
  | nothing => exact Nat.zero_le _

end Draft.Traced

end Loom
