import Loom.Proofs.Scope.Merge
import Loom.Proofs.Scope.Store

/-!
Runs: every graph that a run of operations builds from nothing is well-formed.

An operation takes the objects that it works on by their numbers. A run is lawful when each
operation is given live objects, when a reference is looked up at most once and when no scope is
merged into one below it.
-/

open List

namespace Loom

open ScopeStep

namespace ScopeStep

open ScopeGraph

/-- What an operation asks of the graph and of the references settled so far. -/
def Lawful (g : ScopeGraph) (settled : List ReferenceId) : ScopeStep → Prop
  | .addScope _ _ upper => ∀ u ∈ upper, g.LiveScope u
  | .declare s _ _ _ | .addReference s _ _ _ _ | .removeVariable _ s | .removeReference _ s
  | .removeScope s | .declareReactive s _ | .declareImplicit s _ => g.LiveScope s
  | .resolve r => g.LiveReference r ∧ r ∉ settled
  | .registerNode _ _ => True
  | .replaceScope s children =>
    g.LiveScope s ∧ ∀ cs ∈ children, cs.Perm (g.scopeAt s).children
  | .mergeScope source destination =>
    g.LiveScope source ∧ g.LiveScope destination ∧ source ∉ g.ancestors destination
  | .synthesizeReference _ v s _ =>
    g.LiveVariable v ∧ g.LiveScope s ∧ (g.variableAt v).scope ∈ g.ancestors s
  | .resolveStores => g.LiveScope globalScope

/-- The references that an operation looks up or makes bound. -/
def settles (a : Arena) (g : ScopeGraph) : ScopeStep → List ReferenceId
  | .resolve r => [r]
  | .synthesizeReference _ _ _ _ => [g.references.size]
  | .resolveStores =>
    List.range' g.references.size
      ((perform a g .resolveStores).2.references.size - g.references.size)
  | _ => []

/-- The references settled after an operation: those that were there and settled, and those that it
settles. -/
def settledAfter (a : Arena) (g : ScopeGraph) (settled : List ReferenceId) (step : ScopeStep) :
    List ReferenceId :=
  settled.filter (· < g.references.size) ++ step.settles a g

/-- The references settled after a whole run. -/
def settledRun (a : Arena) : List ScopeStep → ScopeGraph → List ReferenceId → List ReferenceId
  | [], _, settled => settled
  | step :: steps, g, settled =>
    settledRun a steps (step.perform a g).2 (step.settledAfter a g settled)

/-- Each operation of a run is lawful when its turn comes. -/
def LawfulRun (a : Arena) : List ScopeStep → ScopeGraph → List ReferenceId → Prop
  | [], _, _ => True
  | step :: steps, g, settled =>
    step.Lawful g settled ∧ LawfulRun a steps (step.perform a g).2 (step.settledAfter a g settled)

instance (g : ScopeGraph) (s : ScopeId) : Decidable (g.LiveScope s) :=
  inferInstanceAs (Decidable (_ ∧ _))

instance (g : ScopeGraph) (v : VariableId) : Decidable (g.LiveVariable v) :=
  inferInstanceAs (Decidable (_ ∧ _))

instance (g : ScopeGraph) (r : ReferenceId) : Decidable (g.LiveReference r) :=
  inferInstanceAs (Decidable (_ ∧ _))

instance decidableLawful (g : ScopeGraph) (settled : List ReferenceId) (step : ScopeStep) :
    Decidable (step.Lawful g settled) := by
  cases step <;> dsimp only [ScopeStep.Lawful] <;> infer_instance

instance decidableLawfulRun (a : Arena) :
    (steps : List ScopeStep) → (g : ScopeGraph) → (settled : List ReferenceId) →
      Decidable (LawfulRun a steps g settled)
  | [], _, _ => inferInstanceAs (Decidable True)
  | _ :: steps, _, _ =>
    have := decidableLawfulRun a steps
    inferInstanceAs (Decidable (_ ∧ _))

end ScopeStep

open ScopeGraph ScopeStep

variable {a : Arena} {g : ScopeGraph} {settled : List ReferenceId} {step : ScopeStep}

namespace ScopeGraph

theorem WellFormed.empty : ScopeGraph.empty.WellFormed (· ∈ ([] : List ReferenceId)) := by
  have hscope : ∀ {s}, ¬ ScopeGraph.empty.LiveScope s := fun {s} h => Nat.not_lt_zero s h.1
  have hvariable : ∀ {v}, ¬ ScopeGraph.empty.LiveVariable v := fun {v} h => Nat.not_lt_zero v h.1
  have href : ∀ {r}, ¬ ScopeGraph.empty.LiveReference r := fun {r} h => Nat.not_lt_zero r h.1
  constructor
  case tree => constructor <;> intros <;> exact absurd ‹ScopeGraph.empty.LiveScope _› hscope
  case declarations => constructor <;> simp [hscope, hvariable]
  case places => constructor <;> simp [hscope, href]
  case bindings =>
    have hnone : ∀ v, (ScopeGraph.empty.variableAt v).references = [] := fun _ => rfl
    constructor <;> simp [href, hnone]
  case through => constructor <;> simp [hscope]
  case flow => simp [href]

/-- Numbers of references that do not exist yet may be forgotten. -/
theorem WellFormed.forget (h : g.WellFormed (· ∈ settled)) :
    g.WellFormed (· ∈ settled.filter (· < g.references.size)) := by
  refine WellFormedBut.weaken h fun {r} hr _ => ⟨id, ?_⟩
  simp [hr.1]

/-- A lawful operation keeps a graph well-formed. -/
theorem WellFormed.perform (h : g.WellFormed (· ∈ settled)) (hstep : step.Lawful g settled) :
    (step.perform a g).2.WellFormed (· ∈ step.settledAfter a g settled) := by
  have hold := h.forget
  -- Most operations settle nothing.
  have hsame : ∀ {g' : ScopeGraph}, g'.WellFormed (· ∈ settled.filter (· < g.references.size)) →
      g'.WellFormed (· ∈ settled.filter (· < g.references.size) ++ []) := by
    simp only [append_nil]
    exact id
  have hone : ∀ {g' : ScopeGraph} {r : ReferenceId},
      g'.WellFormed (fun q => q ∈ settled.filter (· < g.references.size) ∨ q = r) →
        g'.WellFormed (· ∈ settled.filter (· < g.references.size) ++ [r]) := by
    simp only [mem_append, mem_singleton]
    exact id
  cases step with
  | addScope kind block upper => exact hsame (hold.addScope hstep)
  | declare s name identifier kind =>
    exact hsame (WellFormedBut.declare name identifier kind hold hstep).1
  | addReference s identifier name access init => exact hsame (hold.addReference hstep (by simp))
  | resolve r => exact hone (hold.resolve hstep.1 fun hr => hstep.2 (mem_of_mem_filter hr))
  | registerNode n s => exact hsame hold.registerNode
  | removeVariable pattern s => exact hsame (hold.removeVariable hstep)
  | removeReference identifier s => exact hsame (hold.removeReference hstep)
  | removeScope s => exact hsame (hold.removeScope hstep)
  | replaceScope s children =>
    have hperm : (children.getD (g.scopeAt s).children).Perm (g.scopeAt s).children := by
      cases children with
      | none => exact .refl _
      | some cs => exact hstep.2 cs rfl
    exact hsame (hold.replaceScope hstep.1 hperm)
  | mergeScope source destination =>
    obtain ⟨hs, hd, hout⟩ := hstep
    rw [h.tree.mem_ancestors hd] at hout
    simp only [perform, settledAfter, settles]
    exact hsame (hold.mergeScope hs hd hout)
  | synthesizeReference identifier v s access =>
    obtain ⟨hv, hs, hmem⟩ := hstep
    rw [h.tree.mem_ancestors hs] at hmem
    exact hone (hold.synthesizeReference hv hs hmem)
  | declareReactive s identifier => exact hsame (hold.declareReactive hstep)
  | declareImplicit s name => exact hsame (hold.declareImplicit hstep)
  | resolveStores =>
    have hlt : ∀ {r}, g.resolveStores.2.LiveReference r →
        (g.references.size ≤ r ↔ r ∈ List.range' g.references.size
          (g.resolveStores.2.references.size - g.references.size)) := by
      intro r hr
      rw [mem_range'_1]
      refine ⟨fun hle => ⟨hle, ?_⟩, And.left⟩
      rw [Nat.add_sub_of_le (Nat.le_trans hle (Nat.le_of_lt hr.1))]
      exact hr.1
    refine WellFormedBut.weaken (hold.resolveStores hstep) fun hr _ => ⟨id, ?_⟩
    rw [hlt hr, ← mem_append]
    rfl

theorem WellFormed.run {steps : List ScopeStep} (h : g.WellFormed (· ∈ settled))
    (hrun : LawfulRun a steps g settled) :
    (run a steps g).WellFormed (· ∈ settledRun a steps g settled) := by
  induction steps generalizing g settled with
  | nil => exact h
  | cons step steps ih => exact ih (h.perform hrun.1) hrun.2

end ScopeGraph

/-- Whatever lawful operations build from nothing is well-formed, and no scope of it is above
itself. -/
theorem lawful_run_wellFormed {steps : List ScopeStep} (hrun : LawfulRun a steps .empty []) :
    (run a steps .empty).WellFormed (· ∈ settledRun a steps .empty []) ∧
      ∀ s, (run a steps .empty).LiveScope s →
        ¬ Relation.TransGen (run a steps .empty).Up s s := by
  have hwf := WellFormed.empty.run hrun
  refine ⟨hwf, fun s hs => ?_⟩
  obtain ⟨l, hl⟩ := hwf.tree.rooted hs
  exact hl.not_above_itself

/-- A module with a function around a block. A store is read in the block, the function's scope
makes way for the block, and the block is merged into another. -/
def storeRun : List ScopeStep :=
  [.addScope .global 0 none, .addScope .module 0 (some 0), .addScope .function 1 (some 1),
    .addScope .block 2 (some 2), .declare 1 "count" 3 .variable, .declare 2 "x" 4 .parameter,
    .addReference 3 5 "x" .read false, .resolve 0,
    .addReference 3 6 "$count" .read false, .resolve 1,
    .addReference 3 7 "free" .write false, .resolve 2,
    .resolveStores, .synthesizeReference 8 0 3 .read, .declareImplicit 0 "free",
    .replaceScope 2 none, .removeReference 5 3,
    .addScope .block 9 (some 1), .mergeScope 3 4]

theorem lawful_run_wellFormed_store :
    (run default storeRun .empty).LiveScope 4 ∧
      (run default storeRun .empty).WellFormed (· ∈ settledRun default storeRun .empty []) ∧
      ∀ s, (run default storeRun .empty).LiveScope s →
        ¬ Relation.TransGen (run default storeRun .empty).Up s s :=
  ⟨by decide +kernel, lawful_run_wellFormed (by decide +kernel)⟩

end Loom
