import Loom.Proofs.Draft.Provenance
import Mathlib.Data.List.Sort

/-!
Maps back from a virtual script to its source are exact.

Breakpoints that are apart and in order make each of the lookups unique: at most one of them covers
a byte, at most one of them ends a range, and a range that runs into scaffolding ends in the last
one before it. So the maps give the origins of the bytes and nothing else.
-/

open List

namespace Loom

open Text Breakpoint Range VirtualScript Option

variable {r : Range}

/-- The offsets of a range, in order. -/
def Range.offsets (r : Range) : List Nat := List.range' r.start (r.stop - r.start)

namespace Breakpoint

variable {bs : List Breakpoint} {b b' : Breakpoint} {n p : Nat}

/-- Breakpoints that share an offset are the same. -/
theorem eq_of_meet (h : bs.Pairwise Before) (hb : b ∈ bs) (hb' : b' ∈ bs)
    (hlt : b.generated < b'.stop) (hlt' : b'.generated < b.stop) : b = b' := by
  rcases eq_or_rel_of_pairwise h hb hb' with heq | hbefore | hafter
  · exact heq
  · exact absurd hlt' hbefore.not_gt
  · exact absurd hlt hafter.not_gt

/-- A lookup by a test that only one breakpoint passes. -/
theorem find?_eq_of_unique {test : Breakpoint → Bool} (hb : b ∈ bs) (htest : test b)
    (hunique : ∀ x ∈ bs, test x → x = b) : bs.find? test = some b := by
  cases hfind : bs.find? test with
  | none => exact absurd htest (find?_eq_none.mp hfind b hb)
  | some x => rw [hunique x (mem_of_find?_eq_some hfind) (find?_some hfind)]

/-- A part in both texts: the same offsets from its start cut out the same text. -/
theorem Copied.slice?_eq {source text : Text} (h : b.Copied source text)
    (hstart : b.generated ≤ r.start) (hle : r.start ≤ r.stop) (hstop : r.stop ≤ b.stop) :
    slice? source ⟨b.toSource r.start, b.toSource r.stop⟩ = slice? text r := by
  obtain ⟨part, hsource, htext⟩ := h
  obtain ⟨-, pre, post, rfl, hpre, hpart⟩ := slice?_eq_some.mp hsource
  obtain ⟨-, pre', post', rfl, hpre', -⟩ := slice?_eq_some.mp htext
  simp only [stop] at hstop
  dsimp only at hpre hpre' hpart
  refine slice?_shared (a := r.start - b.generated) (b := r.stop - b.generated) ?_ ?_ ?_ ?_ ?_
  · omega
  · rw [hpre]; rfl
  · rw [hpre]; rfl
  · omega
  · omega

end Breakpoint

namespace VirtualScript

/-- The maps of a virtual script are exact: they agree with the origins of its bytes. -/
structure Exact (v : VirtualScript) (source : Text) (origins : List (Option Nat)) : Prop where
  /-- The breakpoints are not empty and lie in the text, one after another. -/
  proper : ∀ b ∈ v.breakpoints, 0 < b.length
  within : ∀ b ∈ v.breakpoints, b.stop ≤ byteSize v.text
  ordered : v.breakpoints.Pairwise fun b b' => b.generated < b'.generated ∧ b.stop ≤ b'.generated
  copied : ∀ b ∈ v.breakpoints, b.Copied source v.text
  /-- What they leave out is scaffolding. -/
  size : origins.length = byteSize v.text
  synthetic : ∀ n, origins[n]? = some none ↔
    n < byteSize v.text ∧ ∀ b ∈ v.breakpoints, ¬ (b.generated ≤ n ∧ n < b.stop)
  /-- A byte maps when it is a copy, and then to the byte it copies. -/
  start : ∀ n p, v.mapStart n = some p ↔ origins[n]? = some (some p)
  /-- The spans of a range are the origins of its copied bytes, in their order. -/
  spans : ∀ r, (v.mappedSpans r).flatMap offsets = ((origins.take r.stop).drop r.start).filterMap id
  span_proper : ∀ r, ∀ s ∈ v.mappedSpans r, s.start < s.stop
  /-- A range inside a breakpoint maps to the same text. -/
  inside : ∀ b ∈ v.breakpoints, ∀ r : Range, b.generated ≤ r.start → r.start < b.stop →
    r.start ≤ r.stop → b.generated < r.stop → r.stop ≤ b.stop →
    v.mapRange r = some ⟨b.toSource r.start, b.toSource r.stop⟩ ∧
      slice? source ⟨b.toSource r.start, b.toSource r.stop⟩ = slice? v.text r
  /-- A range that runs from a character of a breakpoint into the scaffolding after it ends with the
  copied text, which can be cut, less the blanks at its end. -/
  absorbed : ∀ b ∈ v.breakpoints, ∀ r : Range, b.generated ≤ r.start → r.start < b.stop →
    b.stop < r.stop → (∀ n, b.stop ≤ n → n < r.stop → origins[n]? = some none) →
    isBoundary v.text r.start → ∃ copied, slice? v.text ⟨r.start, b.stop⟩ = some copied ∧
      v.mapRange r = some ⟨b.toSource r.start,
        b.toSource r.start + byteSize (trimEndWhile Text.Property.isBlank copied)⟩

variable {v : VirtualScript} {b : Breakpoint} {n p : Nat}

section

variable (h : v.breakpoints.Pairwise Breakpoint.Before)

include h

theorem mapStart_of_mem (hb : b ∈ v.breakpoints) (hge : b.generated ≤ n) (hlt : n < b.stop) :
    v.mapStart n = some (b.toSource n) := by
  have hfind : v.breakpoints.find? (fun b => b.generated ≤ n && n < b.stop) = some b := by
    refine find?_eq_of_unique hb (by simp [hge, hlt]) fun x hx htest => ?_
    simp only [Bool.and_eq_true, decide_eq_true_eq] at htest
    exact eq_of_meet h hx hb (by omega) (by omega)
  rw [mapStart, hfind]
  rfl

theorem mapStart_eq_some_iff : v.mapStart n = some p ↔ ∃ b ∈ v.breakpoints, b.Sends n p := by
  constructor
  · intro hmap
    obtain ⟨b, hfind, rfl⟩ := map_eq_some_iff.mp hmap
    obtain ⟨hb, hge, hlt⟩ := find?_and_eq_some hfind
    exact ⟨b, hb, hge, hlt, rfl⟩
  · rintro ⟨b, hb, hge, hlt, rfl⟩
    exact mapStart_of_mem h hb hge hlt

theorem mapEnd_of_mem (hb : b ∈ v.breakpoints) (hgt : b.generated < n) (hle : n ≤ b.stop) :
    v.mapEnd n = some (b.toSource n) := by
  have hfind : v.breakpoints.find? (fun b => b.generated < n && n ≤ b.stop) = some b := by
    refine find?_eq_of_unique hb (by simp [hgt, hle]) fun x hx htest => ?_
    simp only [Bool.and_eq_true, decide_eq_true_eq] at htest
    exact eq_of_meet h hx hb (by omega) (by omega)
  rw [mapEnd, hfind]
  rfl

end

/-- A range that runs out of a breakpoint, with no other one before its end. -/
theorem absorbedEnd_of_mem (h : v.breakpoints.Pairwise Breakpoint.Before) (hb : b ∈ v.breakpoints)
    (hge : b.generated ≤ r.start) (hlt : r.start < b.stop) (hstop : b.stop ≤ r.stop)
    (hlast : ∀ x ∈ v.breakpoints, b.Before x → r.stop < x.stop) {copied : Text}
    (hcopied : slice? v.text ⟨r.start, b.stop⟩ = some copied) : v.absorbedEnd r =
    some (b.toSource r.start + byteSize (trimEndWhile Text.Property.isBlank copied)) := by
  have hfind : v.breakpoints.reverse.find? (fun b => b.stop ≤ r.stop && r.start < b.stop) =
      some b := by
    refine find?_eq_of_unique (mem_reverse.mpr hb) (by simp [hstop, hlt]) fun x hx htest => ?_
    simp only [Bool.and_eq_true, decide_eq_true_eq] at htest
    rw [mem_reverse] at hx
    rcases eq_or_rel_of_pairwise h hx hb with heq | hbefore | hafter
    · exact heq
    · simp only [Breakpoint.Before] at hbefore
      omega
    · exact absurd (hlast x hx hafter) htest.1.not_gt
  simp only [absorbedEnd, hfind, bind_eq_bind, bind_some, Nat.max_eq_right hge, hcopied]

/-! Spans. -/

/-- The generated offsets that a range and a breakpoint share. -/
def shared (r : Range) (b : Breakpoint) : Range := ⟨max r.start b.generated, min r.stop b.stop⟩

theorem mem_offsets_shared :
    n ∈ (shared r b).offsets ↔ n ∈ r.offsets ∧ b.generated ≤ n ∧ n < b.stop := by
  simp only [offsets, shared, mem_range'_1]
  omega

section

variable (h : v.breakpoints.Pairwise Breakpoint.Before)

include h

/-- The offsets that a range shares with all breakpoints are the ones that map. -/
theorem flatMap_shared_eq_filter (r : Range) :
    v.breakpoints.flatMap (fun b => (shared r b).offsets) = r.offsets.filter
      fun n => (v.mapStart n).isSome := by
  -- Both lists increase, so it is enough that they have the same members.
  refine List.Pairwise.eq_of_mem_iff (r := (· < ·)) ?_ ?_ fun n => ?_
  · refine pairwise_flatMap.mpr ⟨fun b _ => pairwise_lt_range' .., ?_⟩
    refine h.imp fun {b b'} hbefore n hn n' hn' => ?_
    exact (mem_offsets_shared.mp hn).2.2.trans_le (hbefore.trans (mem_offsets_shared.mp hn').2.1)
  · exact (pairwise_lt_range' ..).filter _
  · simp only [mem_flatMap, mem_offsets_shared, mem_filter, isSome_iff_exists,
      mapStart_eq_some_iff h]
    constructor
    · rintro ⟨b, hb, hn, hge, hlt⟩
      exact ⟨hn, _, b, hb, hge, hlt, rfl⟩
    · rintro ⟨hn, -, b, hb, hge, hlt, -⟩
      exact ⟨b, hb, hn, hge, hlt⟩

/-- One breakpoint's span holds the images of the offsets that it shares with the range. -/
theorem filterMap_shared (hb : b ∈ v.breakpoints) (r : Range) :
    (shared r b).offsets.filterMap v.mapStart =
      offsets ⟨b.toSource (shared r b).start, b.toSource (shared r b).stop⟩ := by
  have hmap : (shared r b).offsets.filterMap v.mapStart = (shared r b).offsets.map b.toSource := by
    rw [← filterMap_eq_map]
    refine filterMap_congr fun n hn => ?_
    obtain ⟨-, hge, hlt⟩ := mem_offsets_shared.mp hn
    exact mapStart_of_mem h hb hge hlt
  have hge : b.generated ≤ (shared r b).start := Nat.le_max_right ..
  rw [hmap]
  refine ext_getElem ?_ fun i _ _ => ?_
  · simp only [offsets, length_map, length_range', toSource]
    omega
  · simp only [offsets, getElem_map, getElem_range', toSource]
    omega

/-- The span of one breakpoint in a range. -/
def span? (r : Range) (b : Breakpoint) : Option Range :=
  if (shared r b).start < (shared r b).stop then
    some ⟨b.toSource (shared r b).start, b.toSource (shared r b).stop⟩
  else none

theorem flatMap_span? (r : Range) {bs : List Breakpoint} (hbs : bs ⊆ v.breakpoints) :
    (bs.filterMap (span? r)).flatMap offsets = bs.flatMap fun b =>
      (shared r b).offsets.filterMap v.mapStart := by
  induction bs with
  | nil => rfl
  | cons b bs ih =>
    obtain ⟨hb, hbs⟩ := cons_subset.mp hbs
    rw [flatMap_cons, ← ih hbs, filterMap_shared h hb]
    by_cases hlt : (shared r b).start < (shared r b).stop
    · rw [filterMap_cons_some (show span? r b = some _ from if_pos hlt), flatMap_cons]
    · rw [filterMap_cons_none (show span? r b = none from if_neg hlt)]
      have hempty : b.toSource (shared r b).stop - b.toSource (shared r b).start = 0 := by
        simp only [toSource]
        omega
      simp only [offsets, hempty, range'_zero, nil_append]

/-- The spans of a range hold the images of its offsets that map, in order. -/
theorem flatMap_mappedSpans (r : Range) :
    (v.mappedSpans r).flatMap offsets = r.offsets.filterMap v.mapStart := by
  have hfilter : r.offsets.filterMap v.mapStart =
      (r.offsets.filter fun n => (v.mapStart n).isSome).filterMap v.mapStart := by
    rw [filterMap_filter]
    refine filterMap_congr fun n _ => ?_
    cases v.mapStart n <;> rfl
  rw [hfilter, ← flatMap_shared_eq_filter h, filterMap_flatMap]
  exact flatMap_span? h r (List.Subset.refl _)

end

/-- The known entries of a list between two places. -/
theorem filterMap_take_drop (origins : List (Option Nat)) (r : Range) :
    ((origins.take r.stop).drop r.start).filterMap id = r.offsets.filterMap
      fun n => origins[n]?.join := by
  rw [drop_take, offsets]
  generalize r.stop - r.start = length
  generalize r.start = start
  induction length generalizing start with
  | zero => simp
  | succ k ih =>
    rw [range'_succ]
    by_cases hlt : start < origins.length
    · rw [drop_eq_getElem_cons hlt, take_succ_cons]
      cases hentry : origins[start] with
      | none =>
        rw [filterMap_cons_none (by simp), filterMap_cons_none (by simp [hlt, hentry])]
        exact ih (start + 1)
      | some p =>
        rw [filterMap_cons_some (b := p) (by simp), filterMap_cons_some (b := p) (by simp [hlt, hentry])]
        exact congrArg _ (ih (start + 1))
    · have hle := not_lt.mp hlt
      rw [filterMap_cons_none (by simp [getElem?_eq_none hle]), ← ih (start + 1),
        drop_eq_nil_of_le hle, drop_eq_nil_of_le (Nat.le_succ_of_le hle)]
      simp

end VirtualScript

namespace Draft.Traced

variable {d : Draft} {origins : List (Option Nat)}

variable (h : d.Traced origins)

include h

theorem mapStart_iff (n p : Nat) : d.finish.mapStart n = some p ↔ origins[n]? = some (some p) :=
  (mapStart_eq_some_iff h.ordered).trans (h.sends n p).symm

/-- A byte is scaffolding when no breakpoint covers it. -/
theorem synthetic_iff (n : Nat) : origins[n]? = some none ↔
    n < d.offset ∧ ∀ b ∈ d.breakpoints, ¬ (b.generated ≤ n ∧ n < b.stop) := by
  constructor
  · intro hnone
    refine ⟨h.size ▸ (List.getElem?_eq_some_iff.mp hnone).1, fun b hb hcovers => ?_⟩
    have hsends := (h.sends n _).mpr ⟨b, hb, hcovers.1, hcovers.2, rfl⟩
    rw [hnone] at hsends
    cases hsends
  · rintro ⟨hlt, hnot⟩
    rw [← h.size] at hlt
    cases hentry : origins[n] with
    | none => rw [getElem?_eq_getElem hlt, hentry]
    | some p =>
      obtain ⟨b, hb, hge, hlt', -⟩ := (h.sends n p).mp (by rw [getElem?_eq_getElem hlt, hentry])
      exact absurd ⟨hge, hlt'⟩ (hnot b hb)

theorem flatMap_mappedSpans (r : Range) :
    (d.finish.mappedSpans r).flatMap offsets = ((origins.take r.stop).drop r.start).filterMap
      id := by
  rw [VirtualScript.flatMap_mappedSpans h.ordered, VirtualScript.filterMap_take_drop]
  refine filterMap_congr fun n _ => ext fun p => ?_
  rw [h.mapStart_iff, join_eq_some_iff]

theorem mapRange_inside {b : Breakpoint} (hb : b ∈ d.breakpoints) (hge : b.generated ≤ r.start)
    (hlt : r.start < b.stop)
    (hle : r.start ≤ r.stop) (hgt : b.generated < r.stop) (hstop : r.stop ≤ b.stop) :
    d.finish.mapRange r = some ⟨b.toSource r.start, b.toSource r.stop⟩ := by
  have hstart := mapStart_of_mem (v := d.finish) h.ordered hb hge hlt
  have hend := mapEnd_of_mem (v := d.finish) h.ordered hb hgt hstop
  have hmax : max (b.toSource r.stop) (b.toSource r.start) = b.toSource r.stop := by
    simp only [toSource]
    omega
  simp only [mapRange, hstart, hend, bind_eq_bind, bind_some, some_or, hmax]

theorem mapRange_absorbed {b : Breakpoint} (hb : b ∈ d.breakpoints) (hge : b.generated ≤ r.start)
    (hlt : r.start < b.stop) (hstop : b.stop < r.stop)
    (hsynthetic : ∀ n, b.stop ≤ n → n < r.stop → origins[n]? = some none)
    (hcut : isBoundary d.text r.start) :
    ∃ copied, slice? d.text ⟨r.start, b.stop⟩ = some copied ∧
      d.finish.mapRange r = some ⟨b.toSource r.start,
      b.toSource r.start + byteSize (trimEndWhile Text.Property.isBlank copied)⟩ := by
  have hstops : isBoundary d.text b.stop := by
    obtain ⟨part, -, hpart⟩ := h.copied b hb
    obtain ⟨-, pre, post, htext, hpre, hsize⟩ := slice?_eq_some.mp hpart
    refine isBoundary_iff.mpr ⟨pre ++ part, post, htext, ?_⟩
    rw [byteSize_append, hpre, hsize]
    exact Nat.add_sub_of_le (Nat.le_add_right ..)
  obtain ⟨copied, hcopied⟩ := slice?_isSome (r := ⟨r.start, b.stop⟩) hlt.le hcut hstops
  refine ⟨copied, hcopied, ?_⟩
  -- A later breakpoint starts on a copied byte, so it starts past the range.
  have hlater : ∀ x ∈ d.breakpoints, b.Before x → r.stop ≤ x.generated := by
    intro x hx hbefore
    refine not_lt.mp fun hinside => ?_
    have hnone := hsynthetic x.generated hbefore hinside
    exact ((h.synthetic_iff _).mp hnone).2 x hx ⟨le_rfl, Nat.lt_add_of_pos_right (h.proper x hx)⟩
  have hstart := mapStart_of_mem (v := d.finish) h.ordered hb hge hlt
  have hend : d.finish.mapEnd r.stop = none := by
    rw [mapEnd, map_eq_none_iff, List.find?_eq_none]
    intro x hx hends
    have hends : x.generated < r.stop ∧ r.stop ≤ x.stop := by simpa using hends
    rcases eq_or_rel_of_pairwise h.ordered hx hb with rfl | hbefore | hafter
    · omega
    · simp only [Breakpoint.Before] at hbefore
      omega
    · exact absurd (hlater x hx hafter) hends.1.not_ge
  have habs := absorbedEnd_of_mem (v := d.finish) h.ordered hb hge hlt hstop.le
    (fun x hx hbefore => (hlater x hx hbefore).trans_lt (Nat.lt_add_of_pos_right (h.proper x hx)))
      hcopied
  simp only [mapRange, hstart, hend, habs, bind_eq_bind, bind_some,
    none_or, Nat.max_eq_left (Nat.le_add_right ..)]

/-- The script of a traced draft has exact maps. -/
theorem exact : d.finish.Exact d.source origins where
  proper := h.proper
  within := h.within
  ordered := by
    refine h.ordered.imp_of_mem fun {b b'} hb _ hbefore => ⟨?_, hbefore⟩
    exact (Nat.lt_add_of_pos_right (h.proper b hb)).trans_le hbefore
  copied := h.copied
  size := h.size
  synthetic := h.synthetic_iff
  start := h.mapStart_iff
  spans := h.flatMap_mappedSpans
  span_proper := by
    intro r s hs
    obtain ⟨b, -, hspan⟩ := mem_filterMap.mp hs
    dsimp only at hspan
    split at hspan
    case isTrue hlt =>
      cases hspan
      simp only [toSource]
      omega
    case isFalse => cases hspan
  inside := fun b hb _ hge hlt hle hgt hstop =>
    ⟨h.mapRange_inside hb hge hlt hle hgt hstop, (h.copied b hb).slice?_eq hge hle hstop⟩
  absorbed := fun _ hb _ hge hlt hstop hsynthetic hcut =>
    h.mapRange_absorbed hb hge hlt hstop hsynthetic hcut

end Draft.Traced

/-- The finished script of any steps holds what they appended, and its maps are exact. -/
theorem script_mapping_exact (source : Text) (steps : List DraftStep) :
    (Draft.run steps (.ofSource source)).finish.text = steps.flatMap (DraftStep.text source) ∧
      (Draft.run steps (.ofSource source)).finish.Exact source
        (steps.flatMap (DraftStep.origins source)) := by
  have hexact := ((Draft.Traced.ofSource source).run steps).exact
  rw [Draft.source_run] at hexact
  exact ⟨Draft.text_run steps (.ofSource source), hexact⟩

/-- An end belongs to the byte before it, so the empty range at the start of a breakpoint has no
image. -/
theorem mapRange_empty_at_start :
    (Draft.run [.copy ⟨0, 2⟩] (.ofSource ['a', 'b'])).finish.breakpoints = [⟨0, 0, 2⟩] ∧
      (Draft.run [.copy ⟨0, 2⟩] (.ofSource ['a', 'b'])).finish.mapRange ⟨0, 0⟩ = none := by
  decide

end Loom
