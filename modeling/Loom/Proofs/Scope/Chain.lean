import Loom.Proofs.Chain
import Loom.Proofs.Scope.View

/-!
Chains of scopes: a scope followed by the scopes above it.

The list of ancestors is computed with fuel. Where the chain of a scope ends, the fuel is enough and
the list is the chain.
-/

namespace Loom.ScopeGraph

/-- `u` is the scope directly above `s`. -/
def Up (g : ScopeGraph) (s u : ScopeId) : Prop := (g.scopeAt s).upper = some u

/-- `s` is `u` or a scope below it. -/
def Below (g : ScopeGraph) : ScopeId → ScopeId → Prop := Relation.ReflTransGen g.Up

/-- The list of a scope and all scopes above it, in order. -/
abbrev Chain (g : ScopeGraph) : ScopeId → List ScopeId → Prop :=
  Loom.Chain fun s => (g.scopeAt s).upper

variable {g : ScopeGraph} {s t u : ScopeId} {l : List ScopeId}

theorem upper_unique (g : ScopeGraph) : Relator.RightUnique g.Up :=
  up_unique fun s => (g.scopeAt s).upper

/-- Of two scopes above the same scope, one is above the other. -/
theorem below_total (ht : g.Below s t) (hu : g.Below s u) : g.Below t u ∨ g.Below u t :=
  Relation.ReflTransGen.total_of_right_unique (upper_unique g) ht hu

namespace Chain

theorem mem_iff (h : g.Chain s l) : t ∈ l ↔ g.Below s t := Loom.Chain.mem_iff h

theorem mem_takeWhile (h : g.Chain s l) (hu : g.Below s u) :
    t ∈ l.takeWhile (· != u) ↔ g.Below s t ∧ g.Below t u ∧ t ≠ u :=
  Loom.Chain.mem_takeWhile h hu

theorem ancestorsWithin_eq {fuel : Nat} (h : g.Chain s l) (hf : l.length ≤ fuel) :
    g.ancestorsWithin fuel s = l := by
  induction h generalizing fuel with
  | top hs =>
    obtain ⟨fuel, rfl⟩ := Nat.exists_eq_succ_of_ne_zero (Nat.ne_of_gt hf)
    simp [ancestorsWithin, hs]
  | step hu _ ih =>
    obtain ⟨fuel, rfl⟩ :=
      Nat.exists_eq_succ_of_ne_zero (Nat.ne_of_gt (Nat.lt_of_lt_of_le (Nat.succ_pos _) hf))
    rw [Loom.Up] at hu
    simp [ancestorsWithin, hu, ih (Nat.le_of_succ_le_succ hf)]

end Chain

/-! What reads only the tree. -/

section Congruence

variable {g' : ScopeGraph}

section

variable (h : g'.treeView = g.treeView)

include h

theorem upper_congr (s : ScopeId) : (g'.scopeAt s).upper = (g.scopeAt s).upper :=
  congrArg (fun x => (x.2 s).1) h

theorem children_congr (s : ScopeId) : (g'.scopeAt s).children = (g.scopeAt s).children :=
  congrArg (fun x => (x.2 s).2.1) h

theorem removed_congr (s : ScopeId) : (g'.scopeAt s).removed = (g.scopeAt s).removed :=
  congrArg (fun x => (x.2 s).2.2) h

theorem size_congr : g'.scopes.size = g.scopes.size := congrArg Prod.fst h

end

theorem up_congr (h : ∀ s, (g'.scopeAt s).upper = (g.scopeAt s).upper) : g'.Up = g.Up := by
  funext s u
  rw [Up, Up, h s]

theorem below_congr (h : ∀ s, (g'.scopeAt s).upper = (g.scopeAt s).upper) : g'.Below = g.Below := by
  rw [Below, Below, up_congr h]

theorem ancestors_congr (hs : g'.scopes.size = g.scopes.size)
    (h : ∀ s, (g'.scopeAt s).upper = (g.scopeAt s).upper)
    (s : ScopeId) : g'.ancestors s = g.ancestors s := by
  have hw : ∀ fuel s, g'.ancestorsWithin fuel s = g.ancestorsWithin fuel s := by
    intro fuel
    induction fuel with
    | zero => intro s; rfl
    | succ fuel ih =>
      intro s
      simp only [ancestorsWithin, h s, ih]
  rw [ancestors, ancestors, hs, hw]

end Congruence

end Loom.ScopeGraph
