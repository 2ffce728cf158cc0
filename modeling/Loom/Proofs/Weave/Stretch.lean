import Loom.Proofs.Text
import Loom.Weave

/-!
Stretches of a virtual script: what weaving adds between two moments.

Wrappers nest or follow each other. The fragments of a wrapper lie strictly inside it, apart from
each other and from the wrappers inside it, because scaffolding stands between any two copied parts.
This is kept by three rules: a part is copied, two stretches are joined, and a stretch becomes the
content of a wrapper.
-/

open List

namespace Loom

open Text

variable {d d1 d2 : Draft} {f : Fragment} {fs fs1 fs2 : List Fragment} {ts ts1 ts2 : List Task}

/-- Two fragments do not touch. -/
def Fragment.Apart (f f' : Fragment) : Prop :=
  f.generated.stop < f'.generated.start ∨ f'.generated.stop < f.generated.start

/-- A fragment lies outside a wrapper. -/
def Fragment.ClearOf (f : Fragment) (t : Task) : Prop :=
  f.generated.stop < t.range.start ∨ t.range.stop ≤ f.generated.start

/-- The text of a fragment is the text of its source. -/
def Fragment.Copied (source text : Text) (f : Fragment) : Prop :=
  ∃ part, slice? source f.source = some part ∧ slice? text f.generated = some part

/-- The breakpoint of a fragment. -/
def Fragment.breakpoint (f : Fragment) : Breakpoint :=
  ⟨f.source.start, f.generated.start, f.generated.stop - f.generated.start⟩

/-- The fragments of a wrapper lie strictly inside it, apart from each other. -/
structure Task.Framed (t : Task) : Prop where
  proper : t.range.start < t.range.stop
  start_lt : ∀ f ∈ t.fragments, t.range.start < f.generated.start
  ordered : ∀ f ∈ t.fragments, f.generated.start ≤ f.generated.stop
  lt_stop : ∀ f ∈ t.fragments, f.generated.stop < t.range.stop
  apart : t.fragments.Pairwise Fragment.Apart

/-- A wrapper ends before a later one starts, or it is inside that one and clear of its
fragments. -/
def Task.Before (t t' : Task) : Prop := t.range.stop ≤ t'.range.start ∨
    (t'.range.start < t.range.start ∧ t.range.stop < t'.range.stop ∧ ∀ f ∈ t'.fragments,
      f.ClearOf t)

theorem Fragment.Apart.symm {f' : Fragment} (h : f.Apart f') : f'.Apart f := Or.symm h

/-- The fragments that some tasks hold. -/
def taskFragments (ts : List Task) : List Fragment := ts.flatMap Task.fragments

theorem mem_taskFragments {ts : List Task} : f ∈ taskFragments ts ↔ ∃ t ∈ ts, f ∈ t.fragments :=
  mem_flatMap

theorem taskFragments_append (ts ts' : List Task) :
    taskFragments (ts ++ ts') = taskFragments ts ++ taskFragments ts' :=
  flatMap_append

/-- What weaving adds to a draft: the fragments that wait for their wrapper, and the finished
wrappers. -/
structure Stretch (d d' : Draft) (fs : List Fragment) (ts : List Task) : Prop where
  source : d'.source = d.source
  text : d.text <+: d'.text
  tasks : d'.tasks = d.tasks ++ ts
  fragment_within : ∀ f ∈ fs, d.offset ≤ f.generated.start ∧
    f.generated.start ≤ f.generated.stop ∧ f.generated.stop ≤ d'.offset
  apart : fs.Pairwise Fragment.Apart
  task_within : ∀ t ∈ ts, d.offset ≤ t.range.start ∧ t.range.stop ≤ d'.offset
  framed : ∀ t ∈ ts, t.Framed
  order : ts.Pairwise Task.Before
  clear : ∀ f ∈ fs, ∀ t ∈ ts, f.ClearOf t
  copied : ∀ f ∈ fs ++ taskFragments ts, f.Copied d.source d'.text
  breakpoints : (∀ b ∈ d.breakpoints, b.stop < d.offset) → ∀ b,
    b ∈ d'.breakpoints ↔ b ∈ d.breakpoints ∨
      ∃ f ∈ fs ++ taskFragments ts, f.generated.start < f.generated.stop ∧ b = f.breakpoint

namespace Stretch

theorem refl (d : Draft) : Stretch d d [] [] := by
  constructor <;> simp [taskFragments]

theorem offset_le (h : Stretch d d1 fs ts) : d.offset ≤ d1.offset := by
  obtain ⟨added, hadded⟩ := h.text
  rw [Draft.offset, Draft.offset, ← hadded, byteSize_append]
  exact Nat.le_add_right ..

end Stretch

theorem Fragment.Copied.extend {source text text' : Text}
    (h : f.Copied source text) (hpre : text <+: text') : f.Copied source text' := by
  obtain ⟨part, hsource, htext⟩ := h
  exact ⟨part, hsource, slice?_of_prefix htext hpre⟩

namespace Stretch

/-- The fragments of a stretch that all end before its end. -/
def Closed (d : Draft) (fs : List Fragment) : Prop := ∀ f ∈ fs, f.generated.stop < d.offset

/-- Scaffolding after a stretch. -/
theorem synthetic (h : Stretch d d1 fs ts) (text : String) :
    Stretch d (d1.synthetic text) fs ts := by
  have hpre : d1.text <+: (d1.synthetic text).text := prefix_append ..
  have hle : d1.offset ≤ (d1.synthetic text).offset := by
    simp [Draft.offset, Draft.synthetic]
  refine ⟨h.source, h.text.trans hpre, h.tasks, ?_, h.apart, ?_, h.framed, h.order, h.clear, ?_,
    h.breakpoints⟩
  · intro f hf
    obtain ⟨hstart, hord, hstop⟩ := h.fragment_within f hf
    exact ⟨hstart, hord, Nat.le_trans hstop hle⟩
  · intro t ht
    obtain ⟨hstart, hstop⟩ := h.task_within t ht
    exact ⟨hstart, Nat.le_trans hstop hle⟩
  · exact fun f hf => (h.copied f hf).extend hpre

theorem offset_synthetic (d : Draft) {text : String} (htext : text ≠ "") :
    d.offset < (d.synthetic text).offset := by
  have hpos : 0 < byteSize text.toList := byteSize_pos (by simpa using htext)
  simp only [Draft.offset, Draft.synthetic, byteSize_append]
  omega

/-- Scaffolding closes a stretch. -/
theorem closed_synthetic (h : Stretch d d1 fs ts) {text : String} (htext : text ≠ "") :
    Closed (d1.synthetic text) fs := fun f hf =>
  Nat.lt_of_le_of_lt (h.fragment_within f hf).2.2 (offset_synthetic d1 htext)

/-- The breakpoints of a closed stretch lie before its end. -/
theorem breakpoint_lt (h : Stretch d d1 fs ts) (hclosed : Closed d1 fs)
    (hsealed : ∀ b ∈ d.breakpoints, b.stop < d.offset) :
    ∀ b ∈ d1.breakpoints, b.stop < d1.offset := by
  intro b hb
  rcases (h.breakpoints hsealed b).mp hb with hb | ⟨f, hf, hlt, rfl⟩
  · exact Nat.lt_of_lt_of_le (hsealed b hb) h.offset_le
  · have hstop : f.breakpoint.stop = f.generated.stop := by
      simp only [Fragment.breakpoint, Breakpoint.stop]
      omega
    rw [hstop]
    rcases mem_append.mp hf with hf | hf
    · exact hclosed f hf
    · obtain ⟨t, ht, hf⟩ := mem_taskFragments.mp hf
      exact Nat.lt_of_lt_of_le ((h.framed t ht).lt_stop f hf) (h.task_within t ht).2

/-- One stretch after another. -/
theorem join (h1 : Stretch d d1 fs1 ts1) (hclosed : Closed d1 fs1) (h2 : Stretch d1 d2 fs2 ts2) :
    Stretch d d2 (fs1 ++ fs2) (ts1 ++ ts2) := by
  have hle1 := h1.offset_le
  have hle2 := h2.offset_le
  have hmem : ∀ f, f ∈ fs1 ++ fs2 ++ taskFragments (ts1 ++ ts2) ↔
      f ∈ fs1 ++ taskFragments ts1 ∨ f ∈ fs2 ++ taskFragments ts2 := by
    intro f
    simp only [taskFragments_append, mem_append]
    exact or_or_or_comm
  refine ⟨h2.source.trans h1.source, h1.text.trans h2.text, ?_, ?_, ?_, ?_, ?_, ?_, ?_, ?_, ?_⟩
  · rw [h2.tasks, h1.tasks, append_assoc]
  · intro f hf
    rcases mem_append.mp hf with hf | hf
    · obtain ⟨hstart, hord, hstop⟩ := h1.fragment_within f hf
      exact ⟨hstart, hord, by omega⟩
    · obtain ⟨hstart, hord, hstop⟩ := h2.fragment_within f hf
      exact ⟨by omega, hord, hstop⟩
  · refine pairwise_append.mpr ⟨h1.apart, h2.apart, fun f hf f' hf' => .inl ?_⟩
    exact Nat.lt_of_lt_of_le (hclosed f hf) (h2.fragment_within f' hf').1
  · intro t ht
    rcases mem_append.mp ht with ht | ht
    · obtain ⟨hstart, hstop⟩ := h1.task_within t ht
      exact ⟨hstart, by omega⟩
    · obtain ⟨hstart, hstop⟩ := h2.task_within t ht
      exact ⟨by omega, hstop⟩
  · intro t ht
    exact (mem_append.mp ht).elim (h1.framed t) (h2.framed t)
  · refine pairwise_append.mpr ⟨h1.order, h2.order, fun t ht t' ht' => .inl ?_⟩
    exact Nat.le_trans (h1.task_within t ht).2 (h2.task_within t' ht').1
  · intro f hf t ht
    rcases mem_append.mp hf with hf | hf <;> rcases mem_append.mp ht with ht | ht
    · exact h1.clear f hf t ht
    · exact .inl (Nat.lt_of_lt_of_le (hclosed f hf) (h2.task_within t ht).1)
    · exact .inr (Nat.le_trans (h1.task_within t ht).2 (h2.fragment_within f hf).1)
    · exact h2.clear f hf t ht
  · intro f hf
    rcases (hmem f).mp hf with hf | hf
    · exact (h1.copied f hf).extend h2.text
    · rw [← h1.source]
      exact h2.copied f hf
  · intro hsealed b
    rw [h2.breakpoints (h1.breakpoint_lt hclosed hsealed) b, h1.breakpoints hsealed b, or_assoc]
    simp only [hmem, or_and_right, exists_or]

/-- A stretch between scaffolding becomes the content of a wrapper. -/
theorem close {before : String} (hbefore : before ≠ "") (after : String) (hafter : after ≠ "")
    (anchor : Nat) (action : Action) (h : Stretch (d.synthetic before) d1 fs ts) :
    Stretch d ((d1.synthetic after).pushTask d.offset anchor fs action) []
      (ts ++ [⟨⟨d.offset, (d1.synthetic after).offset⟩, anchor, fs, action⟩]) := by
  have hlt := offset_synthetic d hbefore
  have hlt' := offset_synthetic d1 hafter
  have hle := h.offset_le
  have hpre : d1.text <+: (d1.synthetic after).text := prefix_append ..
  have hfrag : ∀ (range : Range) f, f ∈ [] ++ taskFragments (ts ++ [⟨range, anchor, fs, action⟩]) ↔
      f ∈ fs ++ taskFragments ts := by
    intro range f
    simp only [taskFragments, flatMap_append, flatMap_singleton, nil_append, mem_append]
    exact or_comm
  refine ⟨h.source, ?_, ?_, by simp, by simp, ?_, ?_, ?_, by simp, ?_, ?_⟩
  · exact ((prefix_append ..).trans h.text).trans hpre
  · simp only [Draft.pushTask, Draft.synthetic] at h ⊢
    rw [h.tasks, append_assoc]
  · intro t ht
    show d.offset ≤ t.range.start ∧ t.range.stop ≤ (d1.synthetic after).offset
    rcases mem_append.mp ht with ht | ht
    · obtain ⟨hstart, hstop⟩ := h.task_within t ht
      exact ⟨by omega, by omega⟩
    · obtain rfl := mem_singleton.mp ht
      exact ⟨Nat.le_refl _, Nat.le_refl _⟩
  · intro t ht
    rcases mem_append.mp ht with ht | ht
    · exact h.framed t ht
    · obtain rfl := mem_singleton.mp ht
      refine ⟨by dsimp only; omega, fun f hf => ?_, fun f hf => ?_, fun f hf => ?_, h.apart⟩
      · exact Nat.lt_of_lt_of_le hlt (h.fragment_within f hf).1
      · exact (h.fragment_within f hf).2.1
      · exact Nat.lt_of_le_of_lt (h.fragment_within f hf).2.2 hlt'
  · refine pairwise_append.mpr ⟨h.order, by simp, fun t ht t' ht' => .inr ?_⟩
    obtain rfl := mem_singleton.mp ht'
    obtain ⟨hstart, hstop⟩ := h.task_within t ht
    exact ⟨Nat.lt_of_lt_of_le hlt hstart, Nat.lt_of_le_of_lt hstop hlt',
      fun f hf => h.clear f hf t ht⟩
  · intro f hf
    exact (h.copied f ((hfrag _ f).mp hf)).extend hpre
  · intro hsealed b
    have hsealed' : ∀ b ∈ (d.synthetic before).breakpoints, b.stop < (d.synthetic before).offset :=
      fun b hb => Nat.lt_trans (hsealed b hb) hlt
    have hb := h.breakpoints hsealed' b
    simp only [hfrag]
    exact hb

end Stretch

/-! Copying. -/

theorem Draft.addBreakpoint_apart {bs : List Breakpoint} {b : Breakpoint}
    (h : ∀ x ∈ bs, x.stop < b.generated) :
    Draft.addBreakpoint bs b = bs ++ if b.length = 0 then [] else [b] := by
  fun_induction Draft.addBreakpoint bs b with
  | case1 b hzero => simp [hzero]
  | case2 b hzero => simp [hzero]
  | case3 last b heq => exact absurd heq.1 (Nat.ne_of_lt (h last (by simp)))
  | case4 last b hne hzero => simp [hzero]
  | case5 last b hne hzero => simp [hzero]
  | case6 b x y rest ih =>
    rw [ih fun z hz => h z (mem_cons_of_mem _ hz)]
    rfl

/-- A part of the source that is cut at boundaries is copied as it is. -/
theorem Stretch.copyFragment {d : Draft} (owner : NodeId) (field : SlotField) {r : Range}
    (hr : Template.validRange d.source r) :
    Stretch d (d.copyFragment owner field r).2 [(d.copyFragment owner field r).1] [] := by
  unfold Template.validRange at hr
  simp only [Bool.and_eq_true, decide_eq_true_eq] at hr
  obtain ⟨part, hpart⟩ := slice?_isSome hr.1.1.1 hr.1.2 hr.2
  have hslice : slice d.source r = part := by rw [slice, hpart]; rfl
  have hgen : (d.copyFragment owner field r).1.generated =
      ⟨d.offset, d.offset + byteSize part⟩ := by
    simp only [Draft.copyFragment, Draft.copy, hslice]
  have htext : (d.copyFragment owner field r).2.text = d.text ++ part := by
    simp only [Draft.copyFragment, Draft.copy, hslice]
  have hoffset : (d.copyFragment owner field r).2.offset = d.offset + byteSize part := by
    rw [Draft.offset, htext, byteSize_append]
    rfl
  refine ⟨rfl, ⟨part, htext.symm⟩, (append_nil _).symm,
    ?_, by simp, by simp, by simp, by simp, by simp, ?_, ?_⟩
  · intro f hf
    obtain rfl := mem_singleton.mp hf
    rw [hgen, hoffset]
    exact ⟨Nat.le_refl _, Nat.le_add_right .., Nat.le_refl _⟩
  · intro f hf
    obtain rfl : f = (d.copyFragment owner field r).1 := by simpa [taskFragments] using hf
    refine ⟨part, hpart, ?_⟩
    rw [hgen, htext]
    refine slice?_eq_some.mpr ⟨Nat.le_add_right .., d.text, [], by simp, rfl, ?_⟩
    exact (Nat.add_sub_cancel_left ..).symm
  · intro hsealed b
    have hbs : (d.copyFragment owner field r).2.breakpoints = d.breakpoints ++ if byteSize part = 0 then []
          else [⟨r.start, d.offset, byteSize part⟩] := by
      simp only [Draft.copyFragment, Draft.copy, hslice]
      exact Draft.addBreakpoint_apart hsealed
    have hlen : (d.copyFragment owner field r).1.breakpoint = ⟨r.start, d.offset, byteSize part⟩ := by
      simp only [Fragment.breakpoint, hgen, Nat.add_sub_cancel_left]
      rfl
    simp only [hbs, mem_append, taskFragments, flatMap_nil, append_nil,
      mem_singleton, exists_eq_left, hgen, hlen]
    by_cases hzero : byteSize part = 0
    · simp [hzero]
    · have hpos : d.offset < d.offset + byteSize part := Nat.lt_add_of_pos_right (Nat.pos_of_ne_zero hzero)
      simp [hzero, hpos]

end Loom
