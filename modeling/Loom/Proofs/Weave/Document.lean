import Loom.Proofs.Weave.Uses

/-!
The plan of a whole document: what the virtual script of a document says about its tasks and copied
parts.
-/

open List

namespace Loom

open Template

/-- Two wrappers nest or follow each other. -/
def Task.Beside (t t' : Task) : Prop := t.Before t' ∨ t'.Before t

instance : Std.Symm Task.Beside := ⟨fun _ _ => Or.symm⟩

instance : Std.Symm Fragment.Apart := ⟨fun _ _ => Fragment.Apart.symm⟩

/-- Script blocks as they open a virtual script, each with its terminator. -/
def scriptsText (source : Text) (ss : List ScriptBlock) : Text :=
  ss.flatMap fun s => Text.slice source s.content ++ scriptTerminator.toList

/-- The layout of a woven document: its tasks, and the copies of whole script blocks. -/
structure Layout (source : Text) (woven : Woven) (scripts : List Fragment) : Prop where
  framed : ∀ t ∈ woven.script.tasks, t.Framed
  order : woven.script.tasks.Pairwise Task.Beside
  sorted : woven.script.tasks.Pairwise fun t t' => t.range.start < t'.range.start
  slots : woven.script.tasks.Pairwise Task.SlotsApart
  ownSlots : ∀ t ∈ woven.script.tasks, t.OwnSlots
  owner_lt : ∀ f ∈ taskFragments woven.script.tasks, f.owner < woven.arena.size
  copied : ∀ f ∈ scripts ++ taskFragments woven.script.tasks, f.Copied source woven.script.text
  scripts_apart : scripts.Pairwise Fragment.Apart
  scripts_clear : ∀ f ∈ scripts, ∀ t ∈ woven.script.tasks, f.ClearOf t
  scripts_ordered : ∀ f ∈ scripts, f.generated.start ≤ f.generated.stop
  scripts_before : ∀ f ∈ scripts, f.generated.stop ≤ woven.script.sentinel
  tasks_before : ∀ t ∈ woven.script.tasks, t.range.stop ≤ woven.script.sentinel
  breakpoints : ∀ b, b ∈ woven.script.breakpoints ↔
    ∃ f ∈ scripts ++ taskFragments woven.script.tasks,
      f.generated.start < f.generated.stop ∧ b = f.breakpoint

namespace Weaving

variable {w : Weaver}

/-- Script blocks are copied apart from each other, after the fragments `fs`. -/
theorem scripts_ensures {ss : List ScriptBlock} {d : Draft} {fs : List Fragment}
    (hss : ∀ s ∈ ss, validRange w.draft.source s.content) (h : Stretch d w.draft fs [])
    (hclosed : Stretch.Closed w.draft fs) :
    Ensures (scripts ss) w fun _ w' => w'.arena = w.arena ∧
      w'.draft.text = w.draft.text ++ scriptsText w.draft.source ss ∧
      ∃ more, Stretch d w'.draft (fs ++ more) [] ∧ Stretch.Closed w'.draft (fs ++ more) ∧
        more.map Fragment.source = ss.map ScriptBlock.content := by
  induction ss generalizing w fs with
  | nil => exact ⟨rfl, (append_nil _).symm, [], by rw [append_nil]; exact ⟨h, hclosed, rfl⟩⟩
  | cons s ss ih =>
    -- A script block is copied as a fragment is; it just has no slot.
    have hcopy := Stretch.copyFragment 0 default (hss s (by simp))
    have hjoin := h.join hclosed hcopy
    let w1 : Weaver := { w with draft := (w.draft.copy s.content).2.synthetic scriptTerminator }
    have hrest := ih (w := w1) (fun s hs => hss s (mem_cons_of_mem _ hs))
      (hjoin.synthetic scriptTerminator) (hjoin.closed_synthetic (by decide))
    obtain ⟨harena, htext, more, hstretch, hclosed', hsources⟩ := hrest
    rw [append_assoc] at hstretch hclosed'
    refine ⟨harena, ?_, _, hstretch, hclosed', congrArg (s.content :: ·) hsources⟩
    refine htext.trans ?_
    simp only [w1, scriptsText, Draft.copy, Draft.synthetic, flatMap_cons, append_assoc]

/-- The draft after the script blocks of a document, which are the copies `fs`. -/
structure Opened (d : Document) (draft opened : Draft) (fs : List Fragment) : Prop where
  stretch : Stretch draft opened fs []
  closed : Stretch.Closed opened fs
  sources : fs.map Fragment.source = d.orderedScripts.map ScriptBlock.content
  text : opened.text = draft.text ++ scriptsText draft.source d.orderedScripts

end Weaving

variable {source : Text} {d : Document}

/-- The virtual script of a document whose ranges fit the source: script blocks, then wrappers, then
padding. -/
theorem weave_stretch (coords : Coordinates) (arena : Arena)
    (hd : d.rangeFault? coords.text = none) :
    ∃ (opened draft : Draft) (fs : List Fragment) (ts : List Task),
      Weaving.Opened d (.ofSource coords.text) opened fs ∧ Stretch opened draft [] ts ∧
        (weave coords d arena).script = (draft.markSentinel.synthetic "\n;").finish := by
  have hvalid := rangeFault?_eq_none_iff.mp hd
  have hscripts : ∀ s ∈ d.orderedScripts, validRange coords.text s.content := fun s hs =>
    hvalid _ (.inl ⟨s, (mergeSort_perm ..).mem_iff.mp hs, rfl⟩)
  obtain ⟨-, htext, fs, hopen, hclosed, hsources⟩ := Weaving.scripts_ensures
    (w := ⟨coords, arena, .ofSource coords.text, []⟩) hscripts (.refl _)
      fun _ hf => absurd hf not_mem_nil
  obtain ⟨w, ⟨-, ts, hweft, -⟩, -, hweave⟩ := weave_covers coords d arena
  refine ⟨_, w.draft, _, ts, ⟨hopen, hclosed, hsources, htext⟩,
    (hweft.stretch fun f hf => ?_).1, by rw [hweave]⟩
  obtain ⟨t, ht, hf⟩ := mem_taskFragments.mp hf
  have ht : t ∈ (weave coords d arena).script.tasks := by
    rw [hweave]
    refine (mergeSort_perm ..).mem_iff.mpr ?_
    show t ∈ w.draft.tasks
    rw [hweft.tasks_eq]
    exact mem_append_right _ ht
  have hsource : (scripted coords d arena).draft.source = coords.text := hopen.source
  rw [hsource]
  exact hvalid _ (((weave_extends coords d arena).2 t ht).fragments f hf)

theorem Task.precedes_iff {t t' : Task} : t.precedes t' = true ↔ t.range.start < t'.range.start ∨
    (t.range.start = t'.range.start ∧ t'.range.stop ≤ t.range.stop) := by
  simp [Task.precedes]

/-- Tasks are kept in the order of their starts. -/
theorem Draft.finish_sorted (d : Draft) :
    d.finish.tasks.Pairwise fun t t' => t.range.start ≤ t'.range.start := by
  have htrans : ∀ t t' t'' : Task, t.precedes t' = true → t'.precedes t'' = true →
      t.precedes t'' = true := by
    simp only [Task.precedes_iff]
    omega
  have htotal : ∀ t t' : Task, (t.precedes t' || t'.precedes t) = true := by
    simp only [Bool.or_eq_true, Task.precedes_iff]
    omega
  refine (pairwise_mergeSort htrans htotal d.tasks).imp fun {t t'} h => ?_
  rw [Task.precedes_iff] at h
  omega

theorem Task.Beside.start_ne {t t' : Task} (h : t.Beside t') (ht : t.Framed) (ht' : t'.Framed) :
    t.range.start ≠ t'.range.start := by
  have hproper := ht.proper
  have hproper' := ht'.proper
  rcases h with (hle | ⟨hlt, -, -⟩) | (hle | ⟨hlt, -, -⟩) <;> omega

theorem Stretch.layout {draft : Draft} {woven : Woven} {fs : List Fragment} {ts : List Task}
    (h : Stretch (.ofSource source) draft fs ts)
    (hslotted : Slotted woven.arena.size woven.script.tasks)
    (hscript : woven.script = (draft.markSentinel.synthetic "\n;").finish) :
    Layout source woven fs := by
  have hperm : woven.script.tasks.Perm ts := by
    have htasks : draft.tasks = ts := h.tasks
    rw [hscript, ← htasks]
    exact mergeSort_perm ..
  have hmem : ∀ {t}, t ∈ woven.script.tasks ↔ t ∈ ts := hperm.mem_iff
  have hheld : ∀ {f}, f ∈ taskFragments woven.script.tasks ↔ f ∈ taskFragments ts := by
    simp only [mem_taskFragments, hmem, implies_true]
  have hall : ∀ {f}, f ∈ fs ++ taskFragments woven.script.tasks ↔ f ∈ fs ++ taskFragments ts := by
    simp only [mem_append, hheld, implies_true]
  have hprefix : draft.text <+: woven.script.text := by
    rw [hscript]
    exact prefix_append ..
  have hsentinel : woven.script.sentinel = draft.offset := by rw [hscript]; rfl
  have horder : woven.script.tasks.Pairwise Task.Beside :=
    (hperm.pairwise_iff symm).mpr (h.order.imp .inl)
  constructor
  case framed => exact fun t ht => h.framed t (hmem.mp ht)
  case order => exact horder
  case sorted =>
    have hsorted := (draft.markSentinel.synthetic "\n;").finish_sorted
    rw [← hscript] at hsorted
    refine (hsorted.and horder).imp_of_mem fun {t t'} ht ht' hboth => ?_
    have hne := hboth.2.start_ne (h.framed t (hmem.mp ht)) (h.framed t' (hmem.mp ht'))
    exact Nat.lt_of_le_of_ne hboth.1 hne
  case slots => exact hslotted.apart
  case ownSlots => exact hslotted.own
  case owner_lt => exact hslotted.owner_lt
  case copied => exact fun f hf => (h.copied f (hall.mp hf)).extend hprefix
  case scripts_apart => exact h.apart
  case scripts_clear => exact fun f hf t ht => h.clear f hf t (hmem.mp ht)
  case scripts_ordered => exact fun f hf => (h.fragment_within f hf).2.1
  case scripts_before => exact fun f hf => hsentinel ▸ (h.fragment_within f hf).2.2
  case tasks_before => exact fun t ht => hsentinel ▸ (h.task_within t (hmem.mp ht)).2
  case breakpoints =>
    intro b
    have hb := h.breakpoints (fun _ hb => absurd hb not_mem_nil) b
    have hnone : b ∉ (Draft.ofSource source).breakpoints := not_mem_nil
    rw [or_iff_right hnone] at hb
    have hsame : woven.script.breakpoints = draft.breakpoints := by rw [hscript]; rfl
    rw [hsame]
    simp only [hall]
    exact hb

/-- The virtual script of a document whose ranges fit the source. -/
theorem layout_weave (coords : Coordinates) (arena : Arena)
    (hd : d.rangeFault? coords.text = none) :
    ∃ scripts, Layout coords.text (weave coords d arena) scripts := by
  obtain ⟨opened, draft, fs, ts, hopened, hstretch, hscript⟩ := weave_stretch coords arena hd
  have hall := hopened.stretch.join hopened.closed hstretch
  rw [append_nil] at hall
  exact ⟨fs, hall.layout (weave_slotted coords d arena) hscript⟩

theorem weave_layout (hd : d.rangeFault? source = none) :
    ∃ scripts, Layout source (weave (.ofText source) d .empty) scripts :=
  layout_weave (.ofText source) .empty hd

variable {t t' : Task} {f f' : Fragment}

theorem Task.Before.apart (h : t.Before t') (ht : t.Framed) (ht' : t'.Framed) (hf : f ∈ t.fragments)
    (hf' : f' ∈ t'.fragments) : f.Apart f' := by
  have hstart := ht.start_lt f hf
  have hstop := ht.lt_stop f hf
  have hstart' := ht'.start_lt f' hf'
  rcases h with hle | ⟨-, -, hclear⟩
  · exact .inl (by omega)
  · rcases hclear f' hf' with hlt | hle
    · exact .inr (by omega)
    · exact .inl (by omega)

/-- A wrapper does not start where a fragment of an earlier one is. -/
theorem Task.Before.start_outside (h : t.Before t') (ht : t.Framed) (hf : f ∈ t.fragments) :
    t'.range.start < f.generated.start ∨ f.generated.stop < t'.range.start := by
  have hstart := ht.start_lt f hf
  have hstop := ht.lt_stop f hf
  rcases h with hle | ⟨hlt, -, -⟩
  · exact .inr (by omega)
  · exact .inl (by omega)

/-- A wrapper does not start where a fragment of a later one is. -/
theorem Task.Before.outside_start (h : t.Before t') (ht : t.Framed) (ht' : t'.Framed)
    (hf' : f' ∈ t'.fragments) :
    t.range.start < f'.generated.start ∨ f'.generated.stop < t.range.start := by
  have hproper := ht.proper
  have hstart' := ht'.start_lt f' hf'
  rcases h with hle | ⟨-, -, hclear⟩
  · exact .inl (by omega)
  · rcases hclear f' hf' with hlt | hle
    · exact .inr hlt
    · exact .inl (by omega)

namespace Layout

variable {woven : Woven} {scripts : List Fragment}

variable (h : Layout source woven scripts)

include h

/-- All copied text ends before the padding. -/
theorem breakpoint_before : ∀ b ∈ woven.script.breakpoints, b.stop ≤ woven.script.sentinel := by
  intro b hb
  obtain ⟨f, hf, hlt, rfl⟩ := (h.breakpoints b).mp hb
  have hstop : f.generated.stop ≤ woven.script.sentinel := by
    rcases mem_append.mp hf with hf | hf
    · exact h.scripts_before f hf
    · obtain ⟨t, ht, hf⟩ := mem_taskFragments.mp hf
      have hinside := (h.framed t ht).lt_stop f hf
      have hbefore := h.tasks_before t ht
      omega
  simp only [Fragment.breakpoint, Breakpoint.stop]
  omega

/-- Fragments that touch are the same fragment of the same task. -/
theorem eq_of_touch (ht : t ∈ woven.script.tasks) (ht' : t' ∈ woven.script.tasks)
    (hf : f ∈ t.fragments) (hf' : f' ∈ t'.fragments) (htouch : ¬ f.Apart f') : t = t' ∧ f = f' := by
  have hframed := h.framed t ht
  have hframed' := h.framed t' ht'
  have hsame : t = t' := by
    by_contra hne
    rcases h.order.forall ht ht' hne with hbefore | hbefore
    · exact htouch (hbefore.apart hframed hframed' hf hf')
    · exact htouch (hbefore.apart hframed' hframed hf' hf).symm
  subst hsame
  refine ⟨rfl, ?_⟩
  by_contra hne
  exact htouch (hframed.apart.forall hf hf' hne)

theorem fragment_ordered (hf : f ∈ scripts ++ taskFragments woven.script.tasks) :
    f.generated.start ≤ f.generated.stop := by
  rcases mem_append.mp hf with hf | hf
  · exact h.scripts_ordered f hf
  · obtain ⟨t, ht, hf⟩ := mem_taskFragments.mp hf
    exact (h.framed t ht).ordered f hf

theorem script_apart (hf : f ∈ scripts) (hf' : f' ∈ taskFragments woven.script.tasks) :
    f.Apart f' := by
  obtain ⟨t, ht, hf'⟩ := mem_taskFragments.mp hf'
  have hstart := (h.framed t ht).start_lt f' hf'
  have hstop := (h.framed t ht).lt_stop f' hf'
  rcases h.scripts_clear f hf t ht with hlt | hle
  · exact .inl (by omega)
  · exact .inr (by omega)

/-- No wrapper starts where a fragment is. -/
theorem start_outside (ht : t ∈ woven.script.tasks) (ht' : t' ∈ woven.script.tasks)
    (hf : f ∈ t.fragments) :
    t'.range.start < f.generated.start ∨ f.generated.stop < t'.range.start := by
  have hframed := h.framed t ht
  by_cases hsame : t = t'
  · subst hsame
    exact .inl (hframed.start_lt f hf)
  · rcases h.order.forall ht ht' hsame with hbefore | hbefore
    · exact hbefore.start_outside hframed hf
    · exact hbefore.outside_start (h.framed t' ht') hframed hf

end Layout

end Loom
