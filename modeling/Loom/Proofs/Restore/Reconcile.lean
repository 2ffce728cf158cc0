import Loom.Proofs.Restore.Trace
import Loom.Proofs.Scope.Sound

/-!
The scopes of undone wrappers, edit by edit.

What a task does to the scopes is a list of edits of the scope graph. Everything that they work on
comes from the index or from the graph itself, so on a sound graph each of them is admissible.
-/

namespace Loom

open ScopeStep ScopeGraph

namespace Task

variable {t : Task} {a : Arena} {n : NodeId} {targets : List NodeId} {g : ScopeGraph}

def handOverEdits (g : ScopeGraph) (node owner : NodeId) : List ScopeStep :=
  match g.acquire? node with
  | some s => [.registerNode owner s]
  | none => []

def placeholderEdits (parts : EachParts) (syntheticContext : Bool) (s : ScopeId) : List ScopeStep :=
  if syntheticContext then
    match parts.params with
    | placeholder :: _ => [.removeVariable placeholder s]
    | [] => []
  else []

/-- The scope of a loop callback goes to the loop, without the placeholder. -/
def loopEdits (g : ScopeGraph) (parts : EachParts) (owner : NodeId) (syntheticContext : Bool) :
    List ScopeStep :=
  match g.acquire? parts.callback with
  | some s => placeholderEdits parts syntheticContext s ++ [.registerNode owner s]
  | none => []

/-- The edits by which a task reconciles the scopes. -/
def edits (t : Task) (a : Arena) (statement : NodeId) (targets : List NodeId) (g : ScopeGraph) :
    List ScopeStep :=
  match t.action with
  | .expression | .constTag => []
  | .ifBlock owner elseOwner =>
    match a.kind statement with
    | .ifStatement _ consequent alternate =>
      let first := handOverEdits g consequent owner
      match alternate, elseOwner with
      | some alternate, some elseOwner => first ++ handOverEdits (run a first g) alternate elseOwner
      | _, _ => first
    | _ => []
  | .eachBlock owner syntheticContext =>
    match a.eachParts? statement with
    | some parts =>
      loopEdits g parts owner syntheticContext ++ [.removeReference parts.array (g.innermostScope a statement)]
    | none => []
  | .callback owner =>
    match a.kind statement with
    | .expressionStatement e =>
      match g.acquire? e with
      | some s =>
        if targets.isEmpty then [.replaceScope s (some (g.scopeAt s).children)] else [.registerNode owner s]
      | none => []
    | _ => []
  | .snippet owner => handOverEdits g statement owner

theorem run_handOverEdits (node owner : NodeId) :
    run a (handOverEdits g node owner) g = handOver g node owner := by
  unfold handOverEdits handOver
  cases g.acquire? node <;> rfl

theorem run_placeholderEdits (parts : EachParts) (syntheticContext : Bool) (s : ScopeId) :
    run a (placeholderEdits parts syntheticContext s) g = dropPlaceholder a parts syntheticContext g
      s := by
  unfold placeholderEdits dropPlaceholder
  cases syntheticContext with
  | false => rfl
  | true => cases parts.params <;> rfl

/-- The edits do what the task does. -/
theorem run_edits (t : Task) (a : Arena) (n : NodeId) (targets : List NodeId) (g : ScopeGraph) :
    run a (t.edits a n targets g) g = t.reconcile a n targets g := by
  cases haction : t.action with
  | expression | constTag =>
    simp only [edits, reconcile, haction]
    rfl
  | ifBlock owner elseOwner =>
    simp only [edits, reconcile, haction]
    cases a.kind n with
    | ifStatement test consequent alternate =>
      cases alternate <;> cases elseOwner <;> simp only [run_append, run_handOverEdits]
    | _ => rfl
  | eachBlock owner syntheticContext =>
    simp only [edits, reconcile, haction]
    cases a.eachParts? n with
    | none => rfl
    | some parts =>
      dsimp only
      rw [run_append, loopEdits]
      cases g.acquire? parts.callback with
      | none => rfl
      | some s =>
        rw [run_append, run_placeholderEdits]
        rfl
  | callback owner =>
    simp only [edits, reconcile, haction]
    cases a.kind n with
    | expressionStatement e =>
      dsimp only
      cases g.acquire? e with
      | none => rfl
      | some s =>
        cases targets.isEmpty <;> rfl
    | _ => rfl
  | snippet owner =>
    simp only [edits, reconcile, haction]
    exact run_handOverEdits ..

theorem handOverEdits_admissible (h : g.Filed) (node owner : NodeId) :
    AdmissibleRun a (handOverEdits g node owner) g := by
  unfold handOverEdits
  split
  · rename_i s hs
    exact admissibleRun_singleton.mpr (h.acquire hs)
  · trivial

theorem placeholderEdits_admissible {s : ScopeId} (parts : EachParts) (syntheticContext : Bool)
    (hs : g.LiveScope s) : AdmissibleRun a (placeholderEdits parts syntheticContext s) g := by
  unfold placeholderEdits
  split
  · split
    · exact admissibleRun_singleton.mpr hs
    · trivial
  · trivial

theorem view_dropPlaceholder {β : Type} (view : ScopeGraph → β) [ScopeGraph.IgnoresContents view]
    (parts : EachParts) (syntheticContext : Bool) (s : ScopeId) :
    view (dropPlaceholder a parts syntheticContext g s) = view g := by
  unfold dropPlaceholder
  split
  · split
    · exact view_removeVariable view
    · rfl
  · rfl

theorem loopEdits_admissible (h : g.Filed) (parts : EachParts) (owner : NodeId)
    (syntheticContext : Bool) : AdmissibleRun a (loopEdits g parts owner syntheticContext) g ∧
      (run a (loopEdits g parts owner syntheticContext) g).treeView = g.treeView := by
  unfold loopEdits
  split
  · rename_i s hs
    have hscope := h.acquire hs
    have htree := view_dropPlaceholder (a := a) (g := g) treeView parts syntheticContext s
    rw [admissibleRun_append, run_append, run_placeholderEdits, admissibleRun_singleton]
    refine ⟨⟨placeholderEdits_admissible _ _ hscope, ?_⟩, treeView_registerNode.trans htree⟩
    show ScopeGraph.LiveScope _ _
    rw [liveScope_congr htree]
    exact hscope
  · exact ⟨trivial, rfl⟩

/-- On a sound graph a task makes only admissible edits. -/
theorem edits_admissible (h : g.Sound) (t : Task) (a : Arena) (n : NodeId) (targets : List NodeId) :
    AdmissibleRun a (t.edits a n targets g) g := by
  cases haction : t.action with
  | expression | constTag =>
    simp only [edits, haction]
    trivial
  | ifBlock owner elseOwner =>
    simp only [edits, haction]
    split
    · rename_i test consequent alternate hkind
      have hfirst := handOverEdits_admissible (a := a) h.filed consequent owner
      split
      · exact admissibleRun_append.mpr ⟨hfirst, handOverEdits_admissible (h.run hfirst).filed ..⟩
      · exact hfirst
    · trivial
  | eachBlock owner syntheticContext =>
    simp only [edits, haction]
    split
    · rename_i parts _
      obtain ⟨hloop, htree⟩ := loopEdits_admissible h.filed parts owner syntheticContext
      refine admissibleRun_append.mpr ⟨hloop, admissibleRun_singleton.mpr ?_⟩
      -- The scope around the loop is still there when its reference to the array is removed.
      show ScopeGraph.LiveScope _ _
      rw [liveScope_congr htree]
      exact h.liveScope_innermost a n
    · trivial
  | callback owner =>
    simp only [edits, haction]
    split
    · split
      · rename_i s hs
        have hscope := h.filed.acquire hs
        split
        · exact admissibleRun_singleton.mpr ⟨hscope, rfl⟩
        · exact admissibleRun_singleton.mpr hscope
      · trivial
    · trivial
  | snippet owner =>
    simp only [edits, haction]
    exact handOverEdits_admissible h.filed ..

end Task

namespace Undoing

/-- The edits by which an undone wrapper reconciles the scopes. -/
def edits (u : Undoing) (g : ScopeGraph) : List ScopeStep :=
  u.task.edits u.arena u.statement u.targets g

/-- The edits of each wrapper do what undoing it does, and are admissible when their turn comes. -/
def AdmissibleAll : List Undoing → ScopeGraph → Prop
  | [], _ => True
  | u :: us, g =>
    (run u.arena (u.edits g) g = u.reconcile g ∧ AdmissibleRun u.arena (u.edits g) g) ∧
      AdmissibleAll us (u.reconcile g)

theorem sound_reconcile {g : ScopeGraph} (h : g.Sound) (u : Undoing) : (u.reconcile g).Sound := by
  have hsound := h.run (Task.edits_admissible h u.task u.arena u.statement u.targets)
  rwa [Task.run_edits] at hsound

/-- Undoing wrappers keeps a graph sound. -/
theorem sound_all {g : ScopeGraph} (h : g.Sound) (us : List Undoing) :
    AdmissibleAll us g ∧ (us.foldl reconcile g).Sound := by
  induction us generalizing g with
  | nil => exact ⟨trivial, h⟩
  | cons u us ih =>
    obtain ⟨hadm, hsound⟩ := ih (sound_reconcile h u)
    exact ⟨⟨⟨Task.run_edits .., Task.edits_admissible h ..⟩, hadm⟩, hsound⟩

end Undoing

end Loom
