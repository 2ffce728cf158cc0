import Loom.Scope.Step

/-!
Views of a scope graph: what a single invariant reads of it.

The tree of the scopes, the declarations, the places of the references, their bindings and their
flow are five views. An operation changes few of them, and an invariant that reads a view it does
not change is kept.
-/

namespace Loom.ScopeGraph

variable {α β : Type} {v : VariableId} {r : ReferenceId} {f : Scope → Scope} {g : ScopeGraph}
  {s : ScopeId}

/-- The scopes with their places in the tree. -/
def treeView (g : ScopeGraph) : Nat × (ScopeId → Option ScopeId × List ScopeId × Bool) :=
  (g.scopes.size, fun s => ((g.scopeAt s).upper, (g.scopeAt s).children, (g.scopeAt s).removed))

/-- The variables with their names and scopes, and what the scopes list of them. -/
def declView (g : ScopeGraph) : Nat × (ScopeId → List VariableId × List (String × VariableId))
    × (VariableId → String × ScopeId × Bool) :=
  (g.vars.size, fun s => ((g.scopeAt s).vars, (g.scopeAt s).set),
    fun v => ((g.variableAt v).name, (g.variableAt v).scope, (g.variableAt v).removed))

/-- The references with their scopes, and what the scopes list of them. -/
def placeView (g : ScopeGraph) :
    Nat × (ScopeId → List ReferenceId) × (ReferenceId → ScopeId × Bool) :=
  (g.references.size, fun s => (g.scopeAt s).references,
    fun r => ((g.referenceAt r).source, (g.referenceAt r).removed))

/-- What the references are bound to, from both ends. -/
def bindingView (g : ScopeGraph) :
    (VariableId → List ReferenceId) × (ReferenceId → Option VariableId) :=
  (fun v => (g.variableAt v).references, fun r => (g.referenceAt r).resolved)

/-- The references that pass through each scope. -/
def throughView (g : ScopeGraph) : ScopeId → List ReferenceId := fun s => (g.scopeAt s).through

/-! Single updates. -/

theorem getD_modify (xs : Array α) (i j : Nat) (f : α → α) (d : α) :
    (xs.modify i f).getD j d = if j = i ∧ i < xs.size then f (xs.getD i d) else xs.getD j d := by
  simp only [Array.getD_eq_getD_getElem?, Array.getElem?_modify]
  by_cases h : i = j
  · subst h
    by_cases hi : i < xs.size <;> simp [hi]
  · simp [h, Ne.symm h]

theorem getD_push (xs : Array α) (j : Nat) (x d : α) :
    (xs.push x).getD j d = if j = xs.size then x else xs.getD j d := by
  simp only [Array.getD_eq_getD_getElem?, Array.getElem?_push]
  split <;> rfl

theorem scopeAt_modifyScope (g : ScopeGraph) (s t : ScopeId) (f : Scope → Scope) :
    (g.modifyScope s f).scopeAt t =
    if t = s ∧ s < g.scopes.size then f (g.scopeAt s) else g.scopeAt t :=
  getD_modify ..

theorem variableAt_modifyVariable (g : ScopeGraph) (v w : VariableId) (f : Variable → Variable) :
    (g.modifyVariable v f).variableAt w =
      if w = v ∧ v < g.vars.size then f (g.variableAt v) else g.variableAt w :=
  getD_modify ..

theorem referenceAt_modifyReference (g : ScopeGraph) (r q : ReferenceId)
    (f : Reference → Reference) : (g.modifyReference r f).referenceAt q =
      if q = r ∧ r < g.references.size then f (g.referenceAt r) else g.referenceAt q :=
  getD_modify ..

@[simp] theorem size_modifyScope :
    (g.modifyScope s f).scopes.size = g.scopes.size := by
  simp [modifyScope]

@[simp] theorem size_modifyVariable (g : ScopeGraph) (v : VariableId) (f : Variable → Variable) :
    (g.modifyVariable v f).vars.size = g.vars.size := by
  simp [modifyVariable]

@[simp] theorem size_modifyReference (g : ScopeGraph) (r : ReferenceId)
    (f : Reference → Reference) : (g.modifyReference r f).references.size = g.references.size := by
  simp [modifyReference]

theorem modifyScope_modifyScope (f' : Scope → Scope) :
    (g.modifyScope s f).modifyScope s f' = g.modifyScope s fun x => f' (f x) := by
  unfold modifyScope
  congr 1
  ext i hi hi'
  · simp
  · simp only [Array.getElem_modify]
    split <;> rfl

/-- An update of a scope that keeps a field keeps it in all scopes. -/
theorem field_modifyScope (p : Scope → β) (hp : ∀ x, p (f x) = p x)
    (g : ScopeGraph) (s t : ScopeId) : p ((g.modifyScope s f).scopeAt t) = p (g.scopeAt t) := by
  rw [scopeAt_modifyScope]
  split
  · rename_i h
    rw [hp, h.1]
  · rfl

theorem field_modifyVariable (p : Variable → β) {f : Variable → Variable}
    (hp : ∀ x, p (f x) = p x) (g : ScopeGraph) (v w : VariableId) :
    p ((g.modifyVariable v f).variableAt w) = p (g.variableAt w) := by
  rw [variableAt_modifyVariable]
  split
  · rename_i h
    rw [hp, h.1]
  · rfl

theorem field_modifyReference (p : Reference → β) {f : Reference → Reference}
    (hp : ∀ x, p (f x) = p x) (g : ScopeGraph) (r q : ReferenceId) :
    p ((g.modifyReference r f).referenceAt q) = p (g.referenceAt q) := by
  rw [referenceAt_modifyReference]
  split
  · rename_i h
    rw [hp, h.1]
  · rfl

/-! What single updates keep. -/

theorem treeView_modifyScope
    (hf : ∀ x, (f x).upper = x.upper ∧ (f x).children = x.children ∧ (f x).removed = x.removed) :
    (g.modifyScope s f).treeView = g.treeView := by
  unfold treeView
  congr 1
  · simp
  · funext t
    exact field_modifyScope (fun x => (x.upper, x.children, x.removed)) (fun x => by simp [hf x]) g
      s t

theorem declView_modifyScope (hf : ∀ x, (f x).vars = x.vars ∧ (f x).set = x.set) :
    (g.modifyScope s f).declView = g.declView := by
  unfold declView
  congr 2
  funext t
  exact field_modifyScope (fun x => (x.vars, x.set)) (fun x => by simp [hf x]) g s t

theorem placeView_modifyScope (hf : ∀ x, (f x).references = x.references) :
    (g.modifyScope s f).placeView = g.placeView := by
  unfold placeView
  congr 2
  funext t
  exact field_modifyScope (·.references) hf g s t

theorem throughView_modifyScope (hf : ∀ x, (f x).through = x.through) :
    (g.modifyScope s f).throughView = g.throughView :=
  funext fun t => field_modifyScope (·.through) hf g s t

theorem declView_modifyVariable {f : Variable → Variable}
    (hf : ∀ x, (f x).name = x.name ∧ (f x).scope = x.scope ∧ (f x).removed = x.removed) :
    (g.modifyVariable v f).declView = g.declView := by
  unfold declView
  congr 1
  · simp
  · congr 1
    funext w
    exact field_modifyVariable (fun x => (x.name, x.scope, x.removed)) (fun x => by simp [hf x]) g v
      w

theorem bindingView_modifyVariable {f : Variable → Variable}
    (hf : ∀ x, (f x).references = x.references) :
    (g.modifyVariable v f).bindingView = g.bindingView := by
  unfold bindingView
  congr 1
  funext w
  exact field_modifyVariable (·.references) hf g v w

theorem placeView_modifyReference {f : Reference → Reference}
    (hf : ∀ x, (f x).source = x.source ∧ (f x).removed = x.removed) :
    (g.modifyReference r f).placeView = g.placeView := by
  unfold placeView
  congr 1
  · simp
  · congr 1
    funext q
    exact field_modifyReference (fun x => (x.source, x.removed)) (fun x => by simp [hf x]) g r q

theorem bindingView_modifyReference {f : Reference → Reference}
    (hf : ∀ x, (f x).resolved = x.resolved) :
    (g.modifyReference r f).bindingView = g.bindingView := by
  unfold bindingView
  congr 1
  funext q
  exact field_modifyReference (·.resolved) hf g r q

end Loom.ScopeGraph
