import Loom.Analysis
import Loom.Proofs.Draft.Report
import Loom.Proofs.Restore.Accept
import Loom.Proofs.Restore.Finish
import Loom.Proofs.Weave.Reads
import Mathlib

/-!
Failures are placed in the source.

A failure of restoring is placed at the anchor of a task, or at the place of a message about a node
of the parsed script. Anchors are starts of ranges of the document, and messages are placed by the
copied text, so a failure never names an offset past the end of the source.
-/

namespace Loom

open Template

/-- A failure that is placed at the anchor of one of the tasks. -/
def Failure.Blames (coords : Coordinates) (ts : List Task) (e : Failure) : Prop :=
  ∃ t ∈ ts, e.spot? = some (.of coords t.anchor)

/-- A failure that is placed where a message about some offset of the script belongs. -/
def Failure.Reports (coords : Coordinates) (v : VirtualScript) (e : Failure) : Prop :=
  ∃ n, e.spot? = some (.of coords (v.errorOffset n))

/-! The walk. -/

namespace Restorer

variable {coords : Coordinates} {ts : List Task} {s : Restorer} {t : Task} {n : NodeId} {fuel : Nat}

/-- What a walk over tasks `ts` comes to: it leaves some of them, or one of them is to blame. -/
def Answers (coords : Coordinates) (ts : List Task) : Except Failure Restorer → Prop
  | .ok s => s.tasks ⊆ ts
  | .error e => e.Blames coords ts

theorem Answers.bind {x : Except Failure Restorer} {f : Restorer → Except Failure Restorer}
    (h : Answers coords ts x)
    (hf : ∀ s, s.tasks ⊆ ts → Answers coords ts (f s)) : Answers coords ts (x >>= f) := by
  cases x with
  | error e => exact h
  | ok s => exact hf s h

theorem finishTask_answers (ht : t ∈ ts) (hs : s.tasks ⊆ ts) :
    Answers coords ts (finishTask coords t n s) := by
  cases hfinish : finishTask coords t n s with
  | ok s' =>
    show s'.tasks ⊆ ts
    rw [(finishTask_eq_ok hfinish).2.1]
    exact hs
  | error e =>
    obtain ⟨a, m, rfl⟩ := mismatch_of_finishTask hfinish
    exact ⟨t, ht, rfl⟩

theorem walkAll_answers_of
    (hwalk : ∀ {n s}, s.tasks ⊆ ts → Answers coords ts (walk coords fuel n s)) {ns : List NodeId}
    (hs : s.tasks ⊆ ts) : Answers coords ts (walkAll coords fuel ns s) := by
  induction ns generalizing s with
  | nil =>
    rw [walkAll]
    exact hs
  | cons n ns ih =>
    rw [walkAll]
    exact (hwalk hs).bind fun s1 hs1 => ih hs1

theorem walk_answers (hs : s.tasks ⊆ ts) : Answers coords ts (walk coords fuel n s) := by
  induction fuel generalizing n s with
  | zero =>
    rw [walk]
    exact hs
  | succ fuel ih =>
    rw [walk]
    rcases nextTask?_cases s (s.bench.arena.range n) with ⟨hnext, -⟩ | ⟨t, rest, htasks, hnext, -⟩
    · rw [hnext]
      exact walkAll_answers_of ih hs
    · rw [htasks, List.cons_subset] at hs
      rw [hnext]
      dsimp only
      split
      · exact ⟨t, hs.1, rfl⟩
      · refine (walkAll_answers_of ih ?_).bind fun s1 hs1 => finishTask_answers hs.1 hs1
        exact hs.2

end Restorer

/-! Cleaning up. -/

namespace Workbench

variable {coords : Coordinates} {v : VirtualScript} {w : Workbench} {e : Failure}

theorem remap_eq_error {ids : List NodeId} (h : w.remap coords v ids = .error e) :
    e.Reports coords v ∧ e.isMatching = false := by
  induction ids generalizing w with
  | nil => cases h
  | cons id ids ih =>
    unfold remap at h
    split at h
    · exact ih h
    · dsimp only at h
      split at h
      · exact ih h
      · cases h
        exact ⟨⟨_, rfl⟩, rfl⟩

theorem cleanStatement_eq_error {statement : NodeId}
    (h : w.cleanStatement coords v statement = .error e) :
    e.Reports coords v ∧ e.isMatching = false := by
  unfold cleanStatement at h
  dsimp only at h
  split at h
  · split at h
    · cases h
      exact ⟨⟨_, rfl⟩, rfl⟩
    · cases h
  · split at h
    · split at h
      · cases h
        exact ⟨⟨_, rfl⟩, rfl⟩
      · cases h
    · exact remap_eq_error h

theorem cleanStatements_eq_error {statements : List NodeId}
    (h : w.cleanStatements coords v statements = .error e) :
    e.Reports coords v ∧ e.isMatching = false := by
  induction statements generalizing w with
  | nil => cases h
  | cons s rest ih =>
    rcases bind_eq_error h with hs | ⟨w1, -, hrest⟩
    · exact cleanStatement_eq_error hs
    · exact ih hrest

end Workbench

/-- A failure of restoring blames a task or is a message about a node. -/
theorem restore_eq_error {coords : Coordinates} {v : VirtualScript} {arena : Arena}
    {scopes : ScopeGraph}
    {program : NodeId} {tokens : List Token} {comments : List Comment} {roots : List NodeId}
    {e : Failure} (h : restore coords v arena scopes program tokens comments roots = .error e) :
    e.Blames coords v.tasks ∨ e.Reports coords v := by
  have hanswers : Restorer.Answers coords v.tasks
      (Restorer.walkAll coords arena.size (arena.children program)
        ⟨⟨arena, scopes, []⟩, v.tasks, .ofList tokens, .ofList comments, [], []⟩) :=
    Restorer.walkAll_answers_of Restorer.walk_answers (List.Subset.refl _)
  rcases restore_error_cases h with hwalk | ⟨s, hwalk, ⟨t, ht, rfl⟩ | hclean⟩
  · rw [hwalk] at hanswers
    exact .inl hanswers
  · rw [hwalk] at hanswers
    exact .inl ⟨t, hanswers ht, rfl⟩
  · exact .inr (Workbench.cleanStatements_eq_error hclean).1

namespace Analysis

variable {source : Text} {d : Document} {host : Host} {options : Options} {f : Failure}

/-- A failure with a place comes from a valid document, and blames a task or is a message about the
script. -/
theorem run_eq_error (h : run source d host options = .error f) (hspot : f.spot?.isSome) :
    d.rangeFault? source = none ∧
    (f.Blames (.ofText source) (weave (.ofText source) d .empty).script.tasks ∨
        f.Reports (.ofText source) (weave (.ofText source) d .empty).script) := by
  unfold run at h
  cases hfault : d.rangeFault? source with
  | some fault =>
    rw [hfault] at h
    cases h
    cases hspot
  | none =>
    rw [hfault] at h
    refine ⟨rfl, ?_⟩
    rcases bind_eq_error h with hconfig | ⟨config, -, h⟩
    · unfold evaluateConfig at hconfig
      split at hconfig
      · cases hconfig
      · split at hconfig
        · cases hconfig
        · cases hconfig
          cases hspot
    rcases bind_eq_error h with hhost | ⟨⟨arena, parsed⟩, -, h⟩
    · cases hparse : host.parse _ _ _ with
      | ok x =>
        rw [hparse] at hhost
        cases hhost
      | error e =>
        rw [hparse] at hhost
        cases hhost
        exact .inr ⟨e.offset, rfl⟩
    rcases bind_eq_error h with hrestore | ⟨restored, -, h⟩
    · exact restore_eq_error hrestore
    · cases h

/-- When the script parser refuses the script, the analysis fails with its failure. -/
theorem run_of_hostError {config : Option Config} {e : HostError}
    (hd : d.rangeFault? source = none) (hconfig : evaluateConfig options = .ok config)
    (hhost : host.parse (.ofText (weave (.ofText source) d .empty).script.text)
      (options.hostOptions d.isTypescript) (weave (.ofText source) d .empty).arena = .error e) :
    run source d host options =
      .error (hostFailure (.ofText source) (weave (.ofText source) d .empty).script e) := by
  unfold run
  rw [hd, hconfig]
  dsimp only [bind, Except.bind]
  rw [hhost]
  rfl

/-- A task is anchored in the source. -/
theorem anchor_le (hd : d.rangeFault? source = none) {t : Task}
    (ht : t ∈ (weave (.ofText source) d .empty).script.tasks) :
    t.anchor ≤ Text.byteSize source := by
  obtain ⟨r, hr, hanchor⟩ := ((weave_extends (.ofText source) d .empty).2 t ht).anchor
  obtain ⟨⟨hle, hstop⟩, -⟩ := validRange_iff.mp (rangeFault?_eq_none_iff.mp hd r hr)
  rw [hanchor]
  exact hle.trans hstop

/-- Every failure that has a place has a place in the source. A failure of the script parser is
placed where the byte that it is about was copied from, or as near as copied text comes. -/
theorem run_failures_located (source : Text) (d : Document) (host : Host) (options : Options) :
    (∀ f spot, run source d host options = .error f → f.spot? = some spot →
      spot.index ≤ Text.byteSize source ∧
        spot.position = (Coordinates.ofText source).position spot.index) ∧
    ∃ steps, (weave (.ofText source) d .empty).script =
      (Draft.run steps (.ofSource source)).finish ∧
      ∀ e config, d.rangeFault? source = none → evaluateConfig options = .ok config →
        host.parse (.ofText (weave (.ofText source) d .empty).script.text)
          (options.hostOptions d.isTypescript) (weave (.ofText source) d .empty).arena = .error e →
        ∃ i, run source d host options = .error (.embedded e.cause (.of (.ofText source) i)) ∧
          ∀ j, (weave (.ofText source) d .empty).script.Reported
            (steps.flatMap (DraftStep.origins source)) e.offset j ↔ j = i := by
  obtain ⟨steps, hscript⟩ := weave_script_run (.ofText source) d .empty
  have hsource : (Draft.run steps (.ofSource source)).source = source := Draft.source_run ..
  have htraced := (Draft.Traced.ofSource source).run steps
  refine ⟨?_, steps, hscript, ?_⟩
  · intro f spot hrun hspot
    obtain ⟨hd, hplace⟩ := run_eq_error hrun (by rw [hspot]; rfl)
    rcases hplace with ⟨t, ht, hat⟩ | ⟨n, hat⟩
    · obtain rfl := Option.some.inj (hspot.symm.trans hat)
      exact ⟨anchor_le hd ht, rfl⟩
    · obtain rfl := Option.some.inj (hspot.symm.trans hat)
      refine ⟨?_, rfl⟩
      have hle := htraced.errorOffset_le (n := n)
      rw [hsource] at hle
      rw [hscript]
      exact hle
  · intro e config hd hconfig hhost
    refine ⟨_, run_of_hostError hd hconfig hhost, fun j => ?_⟩
    rw [hscript]
    constructor
    · exact htraced.eq_errorOffset
    · rintro rfl
      exact htraced.reported_errorOffset

/-- A parser that stops after the closing parenthesis of a wrapper is placed at the end of the
expression. -/
theorem run_failures_located_mustache :
    let source : Text := ['\x7b', 'é', '\x7d']
    let d : Document := ⟨[], [.mustache ⟨0, 4⟩ ⟨1, 3⟩ false]⟩
    let host : Host := ⟨fun _ _ _ => .error ⟨.unexpectedToken, 4⟩⟩
    run source d host default = .error (.embedded .unexpectedToken ⟨3, ⟨1, 2⟩⟩) ∧
      3 ≤ Text.byteSize source := by
  intro source d host
  have hoffset : hostFailure (.ofText source) (weave (.ofText source) d .empty).script
      ⟨.unexpectedToken, 4⟩ = .embedded .unexpectedToken ⟨3, ⟨1, 2⟩⟩ := by cbv
  have hrun : run source d host default = .error (.embedded .unexpectedToken ⟨3, ⟨1, 2⟩⟩) :=
    hoffset ▸ run_of_hostError (by decide) rfl rfl
  exact ⟨hrun, ((run_failures_located source d host default).1 _ _ hrun rfl).1⟩

end Analysis

end Loom
