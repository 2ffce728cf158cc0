import Loom.Proofs.Weave.Document

/-!
What weaving reads of the source.

The text of the ranges that a document holds is all that matters for its virtual script, and after a
successful validation nothing that weaving reads is missing from the source.
-/

namespace Loom

open Template Weaving

namespace Weaving

/-! Two sources that agree at the ranges. -/

/-- Two states over sources that agree at the ranges with `P`, with the same draft and as many
nodes. -/
structure Alike (P : Range → Prop) (w w' : Weaver) : Prop where
  slices : ∀ r, P r → Text.slice w.coords.text r = Text.slice w'.coords.text r
  copies : ∀ r, P r → Text.slice w.draft.source r = Text.slice w'.draft.source r
  text : w.draft.text = w'.draft.text
  breakpoints : w.draft.breakpoints = w'.draft.breakpoints
  tasks : w.draft.tasks = w'.draft.tasks
  sentinel : w.draft.sentinel = w'.draft.sentinel
  size : w.arena.size = w'.arena.size
  roots : w.roots = w'.roots

section Alike

variable {P : Range → Prop} {w w' : Weaver} {r : Range}

theorem Alike.offset_eq (h : Alike P w w') : w.draft.offset = w'.draft.offset :=
  congrArg Text.byteSize h.text

/-- The same bytes land at the same place. -/
theorem Alike.copy (h : Alike P w w') (hr : P r) : (w.draft.copy r).1 = (w'.draft.copy r).1 ∧
    Alike P { w with draft := (w.draft.copy r).2 } { w' with draft := (w'.draft.copy r).2 } := by
  have hcopies := h.copies r hr
  refine ⟨?_, { h with text := ?_, breakpoints := ?_ }⟩
  · simp only [Draft.copy, hcopies, h.offset_eq]
  · simp only [Draft.copy, hcopies, h.text]
  · simp only [Draft.copy, hcopies, h.offset_eq, h.breakpoints]

/-- Weaving cannot tell such sources apart. -/
theorem UsesOnly.alike {α : Type} {m : Weaving α} {Q : α → Prop} (h : UsesOnly P m Q)
    (hw : Alike P w w') : (m.run w).1 = (m.run w').1 ∧ Alike P (m.run w).2 (m.run w').2 := by
  induction h generalizing w w' with
  | pure => exact ⟨rfl, hw⟩
  | @bind α β m f Q R hm hf ih ihf =>
    obtain ⟨hx, hw1⟩ := ih hw
    have hnext := ihf _ (hm.extends (w := w)).1 hw1
    have hrun : ∀ w, (m >>= f).run w = (f (m.run w).1).run (m.run w).2 := fun _ => rfl
    rw [hrun, hrun, ← hx]
    exact hnext
  | @alloc r k hr =>
    have hsize (w : Weaver) : (w.arena.allocAt k r w.coords).2.size = w.arena.size + 1 :=
      Arena.size_allocAt ..
    refine ⟨hw.size, { hw with size := ?_ }⟩
    exact ((hsize w).trans (congrArg (· + 1) hw.size)).trans (hsize w').symm
  | slice hr => exact ⟨congrArg String.ofList (hw.slices _ hr), hw⟩
  | copy hr => exact hw.copy hr
  | copyFragment owner field hr =>
    obtain ⟨hrange, hw1⟩ := hw.copy hr
    exact ⟨congrArg (Fragment.mk owner field _) hrange, hw1⟩
  | pushTask start action hr hf =>
    refine ⟨rfl, { hw with tasks := ?_ }⟩
    show w.draft.tasks ++ [_] = w'.draft.tasks ++ [_]
    rw [hw.tasks, hw.offset_eq]
  | place parent id =>
    refine ⟨rfl, ?_⟩
    cases parent with
    | none => exact { hw with roots := congrArg (· ++ [id]) hw.roots }
    | some p =>
      refine { hw with size := ?_ }
      exact ((Arena.Relinked.pushChild p id).size.trans hw.size).trans (Arena.Relinked.pushChild p id).size.symm
  | link owner role branch =>
    have hsize (w : Weaver) (k : Kind) :
        ((w.arena.setKind owner k).setParent branch (some owner)).size = w.arena.size :=
      (Arena.size_setParent ..).trans (Arena.size_setKind ..)
    exact ⟨rfl, { hw with size := ((hsize w _).trans hw.size).trans (hsize w' _).symm }⟩
  | offset => exact ⟨hw.offset_eq, hw⟩
  | synthetic text => exact ⟨rfl, { hw with text := congrArg (· ++ text.toList) hw.text }⟩
  | markSentinel => exact ⟨rfl, { hw with sentinel := congrArg some hw.offset_eq }⟩

end Alike

end Weaving

section Weave

variable {coords coords' : Coordinates} {d : Document} {arena : Arena}

/-- What a document does not hold does not matter for its virtual script. -/
theorem weave_script_congr (arena : Arena)
    (h : ∀ r, d.Records r → Text.slice coords.text r = Text.slice coords'.text r) :
    (weave coords d arena).script = (weave coords' d arena).script := by
  have hstart : Weaving.Alike d.Records ⟨coords, arena, .ofSource coords.text, []⟩
      ⟨coords', arena, .ofSource coords'.text, []⟩ := ⟨h, h, rfl, rfl, rfl, rfl, rfl, rfl⟩
  obtain ⟨-, halike⟩ := (document_usesOnly d).alike hstart
  simp only [weave, Draft.finish, halike.text, halike.breakpoints, halike.tasks, halike.sentinel,
    halike.offset_eq]

/-- Validation covers what weaving reads. It accepts a document just when all ranges in it, at any
depth, fit the source. Weaving takes its ranges from the document: it copies, slices, anchors and
places nothing else, and the rest of the source does not matter. So with a valid document every copy
and slice finds its text. -/
theorem weave_reads_validated (coords : Coordinates) (d : Document) (arena : Arena) :
    (d.rangeFault? coords.text = none ↔ ∀ r, d.Records r →
      (r.start ≤ r.stop ∧ r.stop ≤ Text.byteSize coords.text) ∧
        Text.isBoundary coords.text r.start ∧ Text.isBoundary coords.text r.stop) ∧
    Weaving.UsesOnly d.Records (document d) (fun _ => True) ∧
    (∀ id, arena.size ≤ id → id < (weave coords d arena).arena.size →
      d.Records ((weave coords d arena).arena.range id)) ∧
    (∀ t ∈ (weave coords d arena).script.tasks, Weaving.TaskUses d.Records t) ∧
    (∀ coords', (∀ r, d.Records r → Text.slice coords.text r = Text.slice coords'.text r) →
      (weave coords d arena).script = (weave coords' d arena).script) ∧
    (d.rangeFault? coords.text = none →
      Weaving.UsesOnly (fun r => ∃ part, Text.slice? coords.text r = some part)
        (document d) (fun _ => True) ∧
      ∀ t ∈ (weave coords d arena).script.tasks, ∀ f ∈ t.fragments,
        f.Copied coords.text (weave coords d arena).script.text) := by
  obtain ⟨hplaced, htasks⟩ := weave_extends coords d arena
  refine ⟨?_, document_usesOnly d, hplaced, htasks, fun _ => weave_script_congr arena, ?_⟩
  · simp only [rangeFault?_eq_none_iff, validRange_iff]
  · intro hd
    refine ⟨(document_usesOnly d).mono fun r hr => ?_, fun t ht f hf => ?_⟩
    · obtain ⟨⟨hle, -⟩, hstart, hstop⟩ := validRange_iff.mp (rangeFault?_eq_none_iff.mp hd r hr)
      exact Text.slice?_isSome hle hstart hstop
    · obtain ⟨scripts, hlayout⟩ := layout_weave coords arena hd
      exact hlayout.copied f (List.mem_append_right _ (mem_taskFragments.mpr ⟨t, ht, hf⟩))

/-- A promise whose value has a name of two bytes, used in the branch. -/
theorem weave_reads_validated_await :
    let coords : Coordinates :=
  .ofText "\x7b#await p\x7d\x7b:then é\x7d\x7bé\x7d\x7b/await\x7d".toList
    let d : Document := ⟨[], [.awaitBlock ⟨0, 32⟩ ⟨8, 9⟩ none
      (some (.mk ⟨10, 24⟩ (some ⟨17, 19⟩) [.mustache ⟨20, 24⟩ ⟨21, 23⟩ false])) none]⟩
    d.rangeFault? coords.text = none ∧ d.Records ⟨21, 23⟩ ∧
      Weaving.UsesOnly (fun r => ∃ part, Text.slice? coords.text r = some part)
        (document d) (fun _ => True) := by
  intro coords d
  have hd : d.rangeFault? coords.text = none := by decide
  have hinner : d.Records ⟨21, 23⟩ := listed_document.mp ⟨.mustacheExpression, by decide⟩
  obtain ⟨-, -, -, -, -, hvalid⟩ := weave_reads_validated coords d .empty
  exact ⟨hd, hinner, (hvalid hd).1⟩

end Weave

end Loom
