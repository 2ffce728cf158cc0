import Loom.Proofs.Weave.Document
import Mathlib

/-!
The plan of a document is laminar: its wrappers are disjoint or nested, and the copied parts lie in
them one by one.

The layout of a document says how wrappers and copied parts stand to each other in the order in
which weaving made them. In the finished script the wrappers are sorted, so the later of two is
after the earlier one or inside it. Each copy that is not empty has a breakpoint of its own, because
scaffolding stands between any two copies and the breakpoints of a draft do not overlap.
-/

open List

namespace Loom

open Template

/-- A wrapper is strictly inside another one. -/
def Task.Inside (t outer : Task) : Prop :=
  outer.range.start < t.range.start ∧ t.range.stop < outer.range.stop

/-- The wrappers and copies of a virtual script that opens with the given script blocks, copied to
`copies`. -/
structure Laminar (source : Text) (scripts : List ScriptBlock) (v : VirtualScript)
    (copies : List Fragment) : Prop where
  starts : v.tasks.Pairwise fun t t' => t.range.start < t'.range.start
  nested : v.tasks.Pairwise fun t t' => t.range.stop ≤ t'.range.start ∨ t'.Inside t
  opening : scriptsText source scripts <+: v.text
  after : ∀ t ∈ v.tasks, Text.byteSize (scriptsText source scripts) ≤ t.range.start
  before : ∀ t ∈ v.tasks, t.range.start < t.range.stop ∧ t.range.stop ≤ v.sentinel
  inside : ∀ t ∈ v.tasks, ∀ f ∈ t.fragments, t.range.start < f.generated.start ∧
    f.generated.start ≤ f.generated.stop ∧ f.generated.stop < t.range.stop
  apart : (taskFragments v.tasks).Pairwise Fragment.Apart
  clear : ∀ t ∈ v.tasks, ∀ t' ∈ v.tasks, t'.Inside t → ∀ f ∈ t.fragments, f.ClearOf t'
  copied : ∀ f ∈ copies ++ taskFragments v.tasks, f.Copied source v.text
  /-- The script blocks are copied in the opening. -/
  contents : copies.map Fragment.source = scripts.map ScriptBlock.content
  contents_within : ∀ f ∈ copies, f.generated.stop ≤ Text.byteSize (scriptsText source scripts)
  /-- Each copy that is not empty has one breakpoint, and there are no others. -/
  breakpoints : v.breakpoints.Perm (((copies ++ taskFragments v.tasks).filter fun f =>
    f.source.start < f.source.stop).map Fragment.breakpoint)

/-- A copy is as long as its source. -/
theorem Fragment.Copied.length_eq {source text : Text} {f : Fragment} (h : f.Copied source text) :
    f.source.stop - f.source.start = f.generated.stop - f.generated.start := by
  obtain ⟨part, hsource, htext⟩ := h
  obtain ⟨-, _, _, -, -, hsize⟩ := Text.slice?_eq_some.mp hsource
  obtain ⟨-, _, _, -, -, hsize'⟩ := Text.slice?_eq_some.mp htext
  exact hsize.symm.trans hsize'

namespace Layout

variable {source : Text} {woven : Woven} {scripts : List Fragment}

variable (h : Layout source woven scripts)

include h

/-- Of two wrappers the later one is after the earlier one, or inside it. -/
theorem nested :
    woven.script.tasks.Pairwise fun t t' => t.range.stop ≤ t'.range.start ∨ t'.Inside t := by
  refine (h.order.and h.sorted).imp_of_mem fun {t t'} ht ht' ⟨hbeside, hlt⟩ => ?_
  have hproper' := (h.framed t' ht').proper
  rcases hbeside with (hle | ⟨hlt', -, -⟩) | (hle | ⟨hlt', hstop, -⟩)
  · exact .inl hle
  · omega
  · omega
  · exact .inr ⟨hlt', hstop⟩

/-- A fragment is clear of the wrappers inside its own. -/
theorem clear {t t' : Task} (ht : t ∈ woven.script.tasks) (ht' : t' ∈ woven.script.tasks)
    (hinside : t'.Inside t) {f : Fragment} (hf : f ∈ t.fragments) : f.ClearOf t' := by
  obtain ⟨hlt, hstop⟩ := hinside
  have hproper' := (h.framed t' ht').proper
  have hne : t ≠ t' := by
    rintro rfl
    omega
  rcases h.order.forall ht ht' hne with (hle | ⟨hlt', -, -⟩) | (hle | ⟨-, -, hclear⟩)
  · omega
  · omega
  · omega
  · exact hclear f hf

/-- No two fragments touch. -/
theorem fragments_apart : (taskFragments woven.script.tasks).Pairwise Fragment.Apart := by
  refine pairwise_flatMap.mpr ⟨fun t ht => (h.framed t ht).apart, ?_⟩
  refine h.order.imp_of_mem fun {t t'} ht ht' hbeside f hf f' hf' => ?_
  rcases hbeside with hbefore | hbefore
  · exact hbefore.apart (h.framed t ht) (h.framed t' ht') hf hf'
  · exact (hbefore.apart (h.framed t' ht') (h.framed t ht) hf' hf).symm

/-- No two copies touch. -/
theorem copies_apart : (scripts ++ taskFragments woven.script.tasks).Pairwise Fragment.Apart :=
  pairwise_append.mpr ⟨h.scripts_apart, h.fragments_apart, fun _ hf _ hf' => h.script_apart hf hf'⟩

/-- The breakpoints are those of the copies that are not empty, one for each. -/
theorem breakpoints_perm (hnodup : woven.script.breakpoints.Nodup) :
    woven.script.breakpoints.Perm (((scripts ++ taskFragments woven.script.tasks).filter fun f =>
      f.source.start < f.source.stop).map Fragment.breakpoint) := by
  refine (perm_ext_iff_of_nodup hnodup ?_).mpr fun b => ?_
  · refine pairwise_map.mpr
      ((h.copies_apart.imp_of_mem fun {f f'} hf hf' hapart heq => ?_).filter _)
    have hord := h.fragment_ordered hf
    have hord' := h.fragment_ordered hf'
    have hstart : f.generated.start = f'.generated.start := congrArg Breakpoint.generated heq
    rcases hapart with hlt | hlt <;> omega
  · rw [h.breakpoints b, mem_map]
    refine exists_congr fun f => ?_
    rw [mem_filter, decide_eq_true_eq, and_assoc, eq_comm]
    refine and_congr_right fun hf => and_congr_left' ?_
    have hlength := (h.copied f hf).length_eq
    omega

end Layout

/-- The plan of a document whose ranges fit the source is laminar. -/
theorem weave_laminar (coords : Coordinates) (d : Document) (arena : Arena)
    (hd : d.rangeFault? coords.text = none) :
    ∃ copies, Laminar coords.text d.orderedScripts (weave coords d arena).script copies := by
  obtain ⟨opened, draft, copies, ts, hopened, hstretch, hscript⟩ := weave_stretch coords arena hd
  have hall := hopened.stretch.join hopened.closed hstretch
  rw [append_nil] at hall
  have hlayout : Layout coords.text (weave coords d arena) copies :=
    hall.layout (weave_slotted coords d arena) hscript
  have htasks : (weave coords d arena).script.tasks.Perm ts := by
    have hmade : draft.tasks = ts := hall.tasks
    rw [hscript, ← hmade]
    exact mergeSort_perm ..
  have hopening : opened.text = scriptsText coords.text d.orderedScripts := hopened.text
  refine ⟨copies, ?_⟩
  constructor
  case starts => exact hlayout.sorted
  case nested => exact hlayout.nested
  case opening =>
    rw [hscript, ← hopening]
    exact hstretch.text.trans (prefix_append ..)
  case after =>
    intro t ht
    rw [← hopening]
    exact (hstretch.task_within t (htasks.mem_iff.mp ht)).1
  case before => exact fun t ht => ⟨(hlayout.framed t ht).proper, hlayout.tasks_before t ht⟩
  case inside =>
    intro t ht f hf
    have hframed := hlayout.framed t ht
    exact ⟨hframed.start_lt f hf, hframed.ordered f hf, hframed.lt_stop f hf⟩
  case apart => exact hlayout.fragments_apart
  case clear => exact fun t ht t' ht' hinside f hf => hlayout.clear ht ht' hinside hf
  case copied => exact hlayout.copied
  case contents => exact hopened.sources
  case contents_within =>
    intro f hf
    rw [← hopening]
    exact (hopened.stretch.fragment_within f hf).2.2
  case breakpoints =>
    obtain ⟨steps, hrun⟩ := weave_script_run coords d arena
    refine hlayout.breakpoints_perm ?_
    rw [hrun]
    exact ((Draft.Traced.ofSource coords.text).run steps).nodup

/-- A script block before a conditional with one value inside. -/
def scriptedSource : Coordinates := .ofText "a\x7b#if b\x7d\x7bc\x7d\x7b/if\x7d".toList

def scriptedDocument : Document :=
  ⟨[⟨⟨0, 1⟩, false, none⟩], [.ifBlock ⟨1, 16⟩ ⟨6, 7⟩ false [.mustache ⟨8, 11⟩ ⟨9, 10⟩ false] none]⟩

theorem weave_laminar_scripted : ∃ copies,
    Laminar scriptedSource.text scriptedDocument.orderedScripts
      (weave scriptedSource scriptedDocument .empty).script copies ∧
    (weave scriptedSource scriptedDocument .empty).script.tasks.map Task.range =
      [⟨4, 19⟩, ⟨13, 17⟩] := by
  obtain ⟨copies, h⟩ := weave_laminar scriptedSource scriptedDocument .empty (by decide)
  exact ⟨copies, h, by cbv⟩

end Loom
