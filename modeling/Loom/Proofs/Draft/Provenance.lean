import Loom.Proofs.Text
import Loom.VirtualScript
import Mathlib.Data.List.Pairwise

/-!
Where the bytes of a draft come from.

A draft is made by steps. Each step tells, for every byte that it appends, which byte of the source
it copies, or that it copies none. The breakpoints of a draft hold exactly this knowledge: they are
apart and in order, the text at each of them is a part of the source, and a byte is a copy when one
of them covers it.
-/

open List

namespace Loom

open Text

theorem find?_and_eq_some {α : Type} {l : List α} {x : α} {p q : α → Prop} [DecidablePred p]
    [DecidablePred q] (h : l.find? (fun x => p x && q x) = some x) : x ∈ l ∧ p x ∧ q x := by
  have htest := find?_some h
  simp only [Bool.and_eq_true, decide_eq_true_eq] at htest
  exact ⟨mem_of_find?_eq_some h, htest⟩

/-- Of two items of an ordered list, one is before the other. -/
theorem eq_or_rel_of_pairwise {α : Type} {R : α → α → Prop} {l : List α} {x y : α}
    (h : l.Pairwise R) (hx : x ∈ l) (hy : y ∈ l) : x = y ∨ R x y ∨ R y x := by
  let related (x y : α) : Prop := x = y ∨ R x y ∨ R y x
  have hsymm : Std.Symm related := ⟨fun _ _ hxy => hxy.imp Eq.symm Or.symm⟩
  have hpairs : l.Pairwise related := h.imp fun hxy => .inr (.inl hxy)
  exact List.Pairwise.forall_of_forall (fun _ _ => .inl rfl) hpairs hx hy

/-- One operation on a draft. -/
inductive DraftStep where
  | copy (r : Range)
  | copyFragment (owner : NodeId) (field : SlotField) (r : Range)
  | synthetic (text : String)
  | pushTask (start anchor : Nat) (fragments : List Fragment) (action : Action)
  | markSentinel
deriving DecidableEq, Repr

namespace DraftStep

def perform (d : Draft) : DraftStep → Draft
  | .copy r => (d.copy r).2
  | .copyFragment owner field r => (d.copyFragment owner field r).2
  | .synthetic text => d.synthetic text
  | .pushTask start anchor fragments action => d.pushTask start anchor fragments action
  | .markSentinel => d.markSentinel

/-- The text that a step appends. -/
def text (source : Text) : DraftStep → Text
  | .copy r | .copyFragment _ _ r => slice source r
  | .synthetic text => text.toList
  | .pushTask .. | .markSentinel => []

/-- The source byte behind each byte that a step appends; scaffolding has none. -/
def origins (source : Text) : DraftStep → List (Option Nat)
  | .copy r | .copyFragment _ _ r =>
    (List.range' r.start (byteSize (slice source r))).map some
  | .synthetic text => List.replicate (byteSize text.toList) none
  | .pushTask .. | .markSentinel => []

end DraftStep

/-- The draft after some steps. -/
def Draft.run (steps : List DraftStep) (d : Draft) : Draft := steps.foldl DraftStep.perform d

namespace Breakpoint

/-- A breakpoint covers the generated offset `n`, which copies the source byte `p`. -/
def Sends (b : Breakpoint) (n p : Nat) : Prop := b.generated ≤ n ∧ n < b.stop ∧ p = b.toSource n

/-- The text at a breakpoint is the text of its source. -/
def Copied (source text : Text) (b : Breakpoint) : Prop :=
  ∃ part, slice? source ⟨b.source, b.source + b.length⟩ = some part ∧
    slice? text ⟨b.generated, b.stop⟩ = some part

/-- One breakpoint ends before the other starts. -/
def Before (b b' : Breakpoint) : Prop := b.stop ≤ b'.generated

theorem Copied.extend {source text text' : Text} {b : Breakpoint} (h : b.Copied source text)
    (hpre : text <+: text') : b.Copied source text' := by
  obtain ⟨part, hsource, htext⟩ := h
  exact ⟨part, hsource, slice?_of_prefix htext hpre⟩

/-- A part that continues another one in both texts. -/
def lengthened (b : Breakpoint) (length : Nat) : Breakpoint :=
  { b with length := b.length + length }

variable {b b' : Breakpoint} {source text : Text}

theorem stop_lengthened (b : Breakpoint) (length : Nat) :
    (b.lengthened length).stop = b.stop + length := (Nat.add_assoc ..).symm

theorem sends_lengthened (hgen : b.stop = b'.generated) (hsource : b.source + b.length = b'.source)
    {n p : Nat} : (b.lengthened b'.length).Sends n p ↔ b.Sends n p ∨ b'.Sends n p := by
  simp only [Sends, lengthened, stop, toSource] at hgen ⊢
  omega

theorem Copied.lengthened (hgen : b.stop = b'.generated) (hsource : b.source + b.length = b'.source)
    (h : b.Copied source text) (h' : b'.Copied source text) :
    (b.lengthened b'.length).Copied source text := by
  obtain ⟨part, hpart, htext⟩ := h
  obtain ⟨part', hpart', htext'⟩ := h'
  refine ⟨part ++ part', ?_, ?_⟩
  · rw [← hsource] at hpart'
    simpa only [Breakpoint.lengthened, Nat.add_assoc] using slice?_join hpart hpart'
  · rw [← hgen] at htext'
    rw [stop_lengthened]
    refine slice?_join htext ?_
    rwa [show b'.stop = b.stop + b'.length by rw [hgen]; rfl] at htext'

end Breakpoint

namespace Draft

/-- What a new part does to the breakpoints: nothing when it is empty, else it follows them or
lengthens the last one. -/
theorem addBreakpoint_cases (bs : List Breakpoint) (b : Breakpoint) :
    (b.length = 0 ∧ addBreakpoint bs b = bs) ∨ (0 < b.length ∧ addBreakpoint bs b = bs ++ [b]) ∨
    ∃ init last, bs = init ++ [last] ∧ last.stop = b.generated ∧
      last.source + last.length = b.source ∧
      addBreakpoint bs b = init ++ [last.lengthened b.length] := by
  fun_induction addBreakpoint bs b with
  | case1 b hzero | case4 _ b _ hzero => exact .inl ⟨hzero, rfl⟩
  | case2 b hzero | case5 _ b _ hzero => exact .inr (.inl ⟨Nat.pos_of_ne_zero hzero, rfl⟩)
  | case3 last b heq => exact .inr (.inr ⟨[], last, rfl, heq.1, heq.2, rfl⟩)
  | case6 x y rest b ih =>
    rcases ih with ⟨hzero, heq⟩ | ⟨hpos, heq⟩ | ⟨init, last, hbs, hgen, hsource, heq⟩
    · exact .inl ⟨hzero, by rw [heq]⟩
    · exact .inr (.inl ⟨hpos, by rw [heq]; rfl⟩)
    · exact .inr (.inr ⟨x :: init, last, by rw [hbs]; rfl, hgen, hsource, by rw [heq]; rfl⟩)

section AddBreakpoint

variable {bs : List Breakpoint} {b : Breakpoint}

/-- What holds of all old parts, of the new one if it is not empty, and of a part that the new one
lengthens, holds of all parts. -/
theorem forall_addBreakpoint {P : Breakpoint → Prop} (hold : ∀ x ∈ bs, P x)
    (hnew : 0 < b.length → P b)
    (hlong : ∀ last ∈ bs, last.stop = b.generated → last.source + last.length = b.source →
      P (last.lengthened b.length)) :
    ∀ x ∈ addBreakpoint bs b, P x := by
  rcases addBreakpoint_cases bs b with ⟨-, heq⟩ | ⟨hpos, heq⟩ | ⟨init, last, rfl, hgen, hsource,
    heq⟩
  · rwa [heq]
  · rw [heq]
    exact forall_mem_append.mpr ⟨hold, forall_mem_singleton.mpr (hnew hpos)⟩
  · rw [heq]
    obtain ⟨hinit, -⟩ := forall_mem_append.mp hold
    exact forall_mem_append.mpr
      ⟨hinit, forall_mem_singleton.mpr (hlong last (by simp) hgen hsource)⟩

theorem pairwise_addBreakpoint (h : bs.Pairwise Breakpoint.Before)
    (hbefore : ∀ x ∈ bs, x.Before b) : (addBreakpoint bs b).Pairwise Breakpoint.Before := by
  rcases addBreakpoint_cases bs b with ⟨-, heq⟩ | ⟨-, heq⟩ | ⟨init, last, rfl, -, -, heq⟩
  · rwa [heq]
  · rw [heq]
    exact pairwise_append.mpr ⟨h, pairwise_singleton .., by simpa using hbefore⟩
  · rw [heq]
    obtain ⟨hinit, -, hlast⟩ := pairwise_append.mp h
    exact pairwise_append.mpr ⟨hinit, pairwise_singleton .., by
      simpa [Breakpoint.Before, Breakpoint.lengthened] using hlast⟩

/-- The bytes that the parts cover are the old ones and those of the new part. -/
theorem sends_addBreakpoint {n p : Nat} :
    (∃ x ∈ addBreakpoint bs b, x.Sends n p) ↔ (∃ x ∈ bs, x.Sends n p) ∨ b.Sends n p := by
  rcases addBreakpoint_cases bs b with ⟨hzero, heq⟩ | ⟨-, heq⟩ | ⟨init, last, rfl, hgen, hsource,
    heq⟩
  · have hnot : ¬ b.Sends n p := by
      simp only [Breakpoint.Sends, Breakpoint.stop]
      omega
    simp [heq, hnot]
  · rw [heq]
    simp [or_and_right, exists_or]
  · rw [heq]
    simp [or_and_right, exists_or, Breakpoint.sends_lengthened hgen hsource, or_assoc]

end AddBreakpoint

/-- The breakpoints of a draft tell the origins of its bytes. -/
structure Traced (d : Draft) (origins : List (Option Nat)) : Prop where
  size : origins.length = d.offset
  proper : ∀ b ∈ d.breakpoints, 0 < b.length
  within : ∀ b ∈ d.breakpoints, b.stop ≤ d.offset
  ordered : d.breakpoints.Pairwise Breakpoint.Before
  copied : ∀ b ∈ d.breakpoints, b.Copied d.source d.text
  sends : ∀ n p, origins[n]? = some (some p) ↔ ∃ b ∈ d.breakpoints, b.Sends n p

namespace Traced

variable {d : Draft} {origins : List (Option Nat)}

theorem ofSource (source : Text) : (ofSource source).Traced [] := by
  constructor <;> simp [Draft.ofSource, offset]

variable (h : d.Traced origins)

include h

theorem synthetic (text : String) :
    (d.synthetic text).Traced (origins ++ List.replicate (byteSize text.toList) none) := by
  have hoffset : (d.synthetic text).offset = d.offset + byteSize text.toList := byteSize_append ..
  refine ⟨?_, h.proper, ?_, h.ordered, ?_, ?_⟩
  · rw [length_append, length_replicate, h.size, hoffset]
  · intro b hb
    rw [hoffset]
    exact Nat.le_trans (h.within b hb) (Nat.le_add_right ..)
  · exact fun b hb => (h.copied b hb).extend (prefix_append ..)
  · intro n p
    show _ ↔ ∃ b ∈ d.breakpoints, b.Sends n p
    rw [← h.sends n p, getElem?_append]
    split
    case isTrue => rfl
    case isFalse hn =>
      -- Past the old text there is only scaffolding.
      simp [getElem?_replicate, getElem?_eq_none (Nat.le_of_not_lt hn)]

theorem copy (r : Range) :
    (d.copy r).2.Traced
      (origins ++ (List.range' r.start (byteSize (slice d.source r))).map some) := by
  let part := slice d.source r
  let b : Breakpoint := ⟨r.start, d.offset, byteSize part⟩
  have hoffset : (d.copy r).2.offset = b.stop := byteSize_append ..
  have htext : d.text <+: (d.copy r).2.text := prefix_append ..
  have hbefore : ∀ x ∈ d.breakpoints, x.Before b := h.within
  have hcopied : 0 < b.length → b.Copied d.source (d.copy r).2.text := by
    intro hpos
    have hsome : slice? d.source r = some part := by
      cases hslice : slice? d.source r with
      | none => simp [b, part, slice, hslice] at hpos
      | some cut => simp [part, slice, hslice]
    obtain ⟨hle, -, -, -, -, hsize⟩ := slice?_eq_some.mp hsome
    refine ⟨part, ?_, slice?_eq_some.mpr ⟨Nat.le_add_right .., d.text, [], ?_, rfl, ?_⟩⟩
    · rwa [show ⟨b.source, b.source + b.length⟩ = r by
        simp only [b, hsize, Nat.add_sub_of_le hle]]
    · exact (append_nil _).symm
    · exact (Nat.add_sub_cancel_left ..).symm
  refine ⟨?_, ?_, ?_, pairwise_addBreakpoint h.ordered hbefore, ?_, ?_⟩
  · rw [length_append, length_map, length_range', h.size, hoffset]
    rfl
  · exact forall_addBreakpoint h.proper id fun last hlast _ _ =>
      Nat.add_pos_left (h.proper last hlast) _
  · refine forall_addBreakpoint (fun x hx => ?_) (fun _ => Nat.le_of_eq hoffset.symm)
      (fun last _ hgen _ => ?_)
    · rw [hoffset]
      exact Nat.le_trans (h.within x hx) (Nat.le_add_right ..)
    · rw [hoffset, Breakpoint.stop_lengthened, hgen]
      exact Nat.le_refl _
  · refine forall_addBreakpoint (fun x hx => (h.copied x hx).extend htext) hcopied
      (fun last hlast hgen hsource => ?_)
    have hlong := (h.copied last hlast).extend htext
    rcases Nat.eq_zero_or_pos b.length with hzero | hpos
    · rw [hzero]
      exact hlong
    · exact hlong.lengthened hgen hsource (hcopied hpos)
  · intro n p
    show _ ↔ ∃ x ∈ addBreakpoint d.breakpoints b, x.Sends n p
    rw [sends_addBreakpoint, ← h.sends n p, getElem?_append]
    have hsize := h.size
    split
    case isTrue hn =>
      have hnot : ¬ b.Sends n p := fun hsends => absurd hsends.1 (by simp only [b]; omega)
      simp [hnot]
    case isFalse hn =>
      have hnone := getElem?_eq_none (Nat.le_of_not_lt hn)
      simp only [hnone, reduceCtorEq, false_or, getElem?_map, Option.map_eq_some_iff,
        getElem?_eq_some_iff, length_range', getElem_range', Option.some.injEq,
        exists_eq_right, Breakpoint.Sends, Breakpoint.stop, Breakpoint.toSource, b, part, hsize]
      constructor
      · rintro ⟨hlt, rfl⟩
        omega
      · rintro ⟨hge, hlt, rfl⟩
        exact ⟨by omega, by omega⟩

/-- A step appends its own origins. -/
theorem perform (step : DraftStep) :
    (step.perform d).Traced (origins ++ step.origins d.source) := by
  cases step with
  | copy r => exact h.copy r
  | copyFragment owner field r => exact h.copy r
  | synthetic text => exact h.synthetic text
  | pushTask | markSentinel =>
    rw [DraftStep.origins, append_nil]
    exact ⟨h.size, h.proper, h.within, h.ordered, h.copied, h.sends⟩

/-- The breakpoints of a draft differ. -/
theorem nodup : d.breakpoints.Nodup := by
  refine h.ordered.imp_of_mem fun {b b'} hb _ hbefore heq => ?_
  subst heq
  have hproper := h.proper b hb
  unfold Breakpoint.Before Breakpoint.stop at hbefore
  omega

end Traced

theorem source_perform (d : Draft) (step : DraftStep) : (step.perform d).source = d.source := by
  cases step <;> rfl

theorem text_perform (d : Draft) (step : DraftStep) :
    (step.perform d).text = d.text ++ step.text d.source := by
  cases step <;> simp [DraftStep.perform, DraftStep.text, copy, copyFragment, Draft.synthetic,
    pushTask, markSentinel]

theorem source_run (steps : List DraftStep) (d : Draft) : (run steps d).source = d.source := by
  induction steps generalizing d with
  | nil => rfl
  | cons step steps ih => exact (ih _).trans (source_perform d step)

/-- The text of a draft is what its steps appended. -/
theorem text_run (steps : List DraftStep) (d : Draft) :
    (run steps d).text = d.text ++ steps.flatMap (DraftStep.text d.source) := by
  induction steps generalizing d with
  | nil => simp [run]
  | cons step steps ih =>
    rw [flatMap_cons, ← append_assoc, ← text_perform, ← source_perform d step]
    exact ih _

theorem Traced.run {d : Draft} {origins : List (Option Nat)} (h : d.Traced origins)
    (steps : List DraftStep) :
    (Draft.run steps d).Traced (origins ++ steps.flatMap (DraftStep.origins d.source)) := by
  induction steps generalizing d origins with
  | nil => simpa [Draft.run] using h
  | cons step steps ih =>
    have hstep := ih (h.perform step)
    rw [source_perform, append_assoc] at hstep
    exact hstep

end Draft

end Loom
