import Loom.Proofs.Scope.Chain

/-!
Well-formed scope graphs.

The lists that a graph keeps follow from the uppers of the scopes, the scopes of the variables, and
the scopes and bindings of the references. A graph is well-formed when every list of something live
says just that.
-/

namespace Loom.ScopeGraph

variable {v : VariableId} {r : ReferenceId} {name : String}

def LiveScope (g : ScopeGraph) (s : ScopeId) : Prop :=
  s < g.scopes.size ∧ (g.scopeAt s).removed = false

def LiveVariable (g : ScopeGraph) (v : VariableId) : Prop :=
  v < g.vars.size ∧ (g.variableAt v).removed = false

def LiveReference (g : ScopeGraph) (r : ReferenceId) : Prop :=
  r < g.references.size ∧ (g.referenceAt r).removed = false

/-- The scope of the variable that a reference is bound to. -/
def owner? (g : ScopeGraph) (r : ReferenceId) : Option ScopeId :=
  (g.referenceAt r).resolved.map fun v => (g.variableAt v).scope

/-- A scope lies on the way of a reference: from its own scope upward, and strictly below the scope
of its variable when it is bound. -/
def PassesThrough (g : ScopeGraph) (r : ReferenceId) (s : ScopeId) : Prop :=
  g.Below (g.referenceAt r).source s ∧ ∀ o, g.owner? r = some o → g.Below s o ∧ s ≠ o

/-- The scopes form trees: every chain upward ends, and the children of a scope are the live scopes
directly below it, each listed once. -/
structure TreeLinks (g : ScopeGraph) : Prop where
  rooted : ∀ {s}, g.LiveScope s → ∃ l, g.Chain s l
  upper_live : ∀ {s u}, g.LiveScope s → g.Up s u → g.LiveScope u
  children_nodup : ∀ {s}, g.LiveScope s → (g.scopeAt s).children.Nodup
  mem_children : ∀ {s c}, g.LiveScope s → (c ∈ (g.scopeAt s).children ↔ g.LiveScope c ∧ g.Up c s)

/-- The variables of a scope are the live variables that belong to it, and it finds each of them by
its name. -/
structure DeclarationLinks (g : ScopeGraph) : Prop where
  scope_live : ∀ {v}, g.LiveVariable v → g.LiveScope (g.variableAt v).scope
  vars_nodup : ∀ {s}, g.LiveScope s → (g.scopeAt s).vars.Nodup
  mem_vars : ∀ {s v},
    g.LiveScope s → (v ∈ (g.scopeAt s).vars ↔ g.LiveVariable v ∧ (g.variableAt v).scope = s)
  names_nodup : ∀ {s}, g.LiveScope s → ((g.scopeAt s).set.map Prod.fst).Nodup
  declared_iff : ∀ {s name v}, g.LiveScope s →
    (g.declared? s name = some v ↔ v ∈ (g.scopeAt s).vars ∧ (g.variableAt v).name = name)

/-- The references of a scope are the live references made in it. -/
structure PlaceLinks (g : ScopeGraph) : Prop where
  source_live : ∀ {r}, g.LiveReference r → g.LiveScope (g.referenceAt r).source
  mem_references : ∀ {s r}, g.LiveScope s →
    (r ∈ (g.scopeAt s).references ↔ g.LiveReference r ∧ (g.referenceAt r).source = s)

/-- The references of a variable are the live references bound to it, which only live variables
have. -/
structure BindingLinks (g : ScopeGraph) : Prop where
  mem_references : ∀ {v r}, r ∈ (g.variableAt v).references ↔
    g.LiveReference r ∧ (g.referenceAt r).resolved = some v
  bound_live : ∀ {r v}, g.LiveReference r → (g.referenceAt r).resolved = some v → g.LiveVariable v

/-- The flow of one reference: it is bound from its own scope upward and listed by the scopes that
it passes through. Before it is settled it is neither bound nor listed. -/
structure Flow (g : ScopeGraph) (settled : Prop) (r : ReferenceId) : Prop where
  below_owner : ∀ {o}, g.owner? r = some o → g.Below (g.referenceAt r).source o
  mem_through : ∀ {s}, g.LiveScope s → (r ∈ (g.scopeAt s).through ↔ settled ∧ g.PassesThrough r s)
  settled_of_bound : ∀ {o}, g.owner? r = some o → settled

/-- What passes through a scope is live, and listed once. -/
structure ThroughLists (g : ScopeGraph) : Prop where
  live : ∀ {s r}, g.LiveScope s → r ∈ (g.scopeAt s).through → g.LiveReference r
  nodup : ∀ {s}, g.LiveScope s → (g.scopeAt s).through.Nodup

/-- A graph is well-formed up to the flow of some references. -/
structure WellFormedBut (g : ScopeGraph) (settled : ReferenceId → Prop)
    (open_ : ReferenceId → Prop) : Prop where
  tree : g.TreeLinks
  declarations : g.DeclarationLinks
  places : g.PlaceLinks
  bindings : g.BindingLinks
  through : g.ThroughLists
  flow : ∀ {r}, g.LiveReference r → ¬ open_ r → g.Flow (settled r) r

/-- All links of a graph agree; `settled` are the references that have been looked up or made
bound. -/
def WellFormed (g : ScopeGraph) (settled : ReferenceId → Prop) : Prop :=
  g.WellFormedBut settled fun _ => False

variable {g g' : ScopeGraph} {settled open_ : ReferenceId → Prop}

/-! What each part reads. -/

section

variable (h : g'.treeView = g.treeView)

include h

theorem liveScope_congr : g'.LiveScope = g.LiveScope := by
  funext s
  rw [LiveScope, LiveScope, size_congr h, removed_congr h]

theorem below_congr_tree : g'.Below = g.Below := below_congr (upper_congr h)

theorem up_congr_tree : g'.Up = g.Up := up_congr (upper_congr h)

theorem ancestors_congr_tree (s : ScopeId) : g'.ancestors s = g.ancestors s :=
  ancestors_congr (size_congr h) (upper_congr h) s

end

theorem LiveScope.of_tree {s : ScopeId} (hs : g.LiveScope s) (h : g'.treeView = g.treeView) :
    g'.LiveScope s :=
  liveScope_congr h ▸ hs

section

variable (h : g'.declView = g.declView)

include h

theorem vars_congr (s : ScopeId) : (g'.scopeAt s).vars = (g.scopeAt s).vars :=
  congrArg (fun x => (x.2.1 s).1) h

theorem set_congr (s : ScopeId) : (g'.scopeAt s).set = (g.scopeAt s).set :=
  congrArg (fun x => (x.2.1 s).2) h

theorem name_congr (v : VariableId) : (g'.variableAt v).name = (g.variableAt v).name :=
  congrArg (fun x => (x.2.2 v).1) h

theorem scope_congr (v : VariableId) : (g'.variableAt v).scope = (g.variableAt v).scope :=
  congrArg (fun x => (x.2.2 v).2.1) h

theorem liveVariable_congr : g'.LiveVariable = g.LiveVariable := by
  funext v
  have hsize : g'.vars.size = g.vars.size := congrArg Prod.fst h
  have hrem : (g'.variableAt v).removed = (g.variableAt v).removed :=
    congrArg (fun x => (x.2.2 v).2.2) h
  rw [LiveVariable, LiveVariable, hsize, hrem]

theorem declared_congr (s : ScopeId) (name : String) :
    g'.declared? s name = g.declared? s name := by
  rw [declared?, declared?, set_congr h]

end

theorem LiveVariable.of_declaration (hv : g.LiveVariable v)
    (h : g'.declView = g.declView) : g'.LiveVariable v :=
  liveVariable_congr h ▸ hv

theorem references_congr (h : g'.placeView = g.placeView) (s : ScopeId) :
    (g'.scopeAt s).references = (g.scopeAt s).references :=
  congrArg (fun x => x.2.1 s) h

theorem source_congr (h : g'.placeView = g.placeView) (r : ReferenceId) :
    (g'.referenceAt r).source = (g.referenceAt r).source :=
  congrArg (fun x => (x.2.2 r).1) h

theorem liveReference_congr (h : g'.placeView = g.placeView) :
    g'.LiveReference = g.LiveReference := by
  funext r
  have hsize : g'.references.size = g.references.size := congrArg Prod.fst h
  have hrem : (g'.referenceAt r).removed = (g.referenceAt r).removed :=
    congrArg (fun x => (x.2.2 r).2) h
  rw [LiveReference, LiveReference, hsize, hrem]

theorem LiveReference.of_place (hr : g.LiveReference r) (h : g'.placeView = g.placeView) :
    g'.LiveReference r :=
  liveReference_congr h ▸ hr

theorem bound_congr (h : g'.bindingView = g.bindingView) (v : VariableId) :
    (g'.variableAt v).references = (g.variableAt v).references :=
  congrArg (fun x => x.1 v) h

theorem resolved_congr (h : g'.bindingView = g.bindingView) (r : ReferenceId) :
    (g'.referenceAt r).resolved = (g.referenceAt r).resolved :=
  congrArg (fun x => x.2 r) h

theorem through_congr (h : g'.throughView = g.throughView) (s : ScopeId) :
    (g'.scopeAt s).through = (g.scopeAt s).through :=
  congrFun h s

theorem owner_congr (hd : g'.declView = g.declView)
    (hr : (g'.referenceAt r).resolved = (g.referenceAt r).resolved) : g'.owner? r = g.owner? r := by
  simp only [owner?, hr, scope_congr hd]

theorem TreeLinks.congr (ht : g'.treeView = g.treeView) (h : g.TreeLinks) : g'.TreeLinks where
  rooted := by
    intro s hs
    rw [liveScope_congr ht] at hs
    obtain ⟨l, hl⟩ := h.rooted hs
    exact ⟨l, Chain.congr (upper_congr ht) hl⟩
  upper_live := by
    rw [liveScope_congr ht, up_congr_tree ht]
    exact h.upper_live
  children_nodup := by
    intro s
    rw [liveScope_congr ht, children_congr ht]
    exact h.children_nodup
  mem_children := by
    intro s c
    rw [liveScope_congr ht, up_congr_tree ht, children_congr ht]
    exact h.mem_children

/-- The lists of one scope say which variables belong to it. -/
structure Declares (g : ScopeGraph) (s : ScopeId) : Prop where
  vars_nodup : (g.scopeAt s).vars.Nodup
  mem_vars : ∀ {v}, v ∈ (g.scopeAt s).vars ↔ g.LiveVariable v ∧ (g.variableAt v).scope = s
  names_nodup : ((g.scopeAt s).set.map Prod.fst).Nodup
  declared_iff : ∀ {name v}, g.declared? s name = some v ↔
    v ∈ (g.scopeAt s).vars ∧ (g.variableAt v).name = name

section Declares

variable {s : ScopeId}

theorem Declares.declared (h : g.Declares s) (hv : g.declared? s name = some v) :
    g.LiveVariable v ∧ (g.variableAt v).scope = s ∧ (g.variableAt v).name = name := by
  obtain ⟨hmem, hname⟩ := h.declared_iff.mp hv
  obtain ⟨hlive, hscope⟩ := h.mem_vars.mp hmem
  exact ⟨hlive, hscope, hname⟩

/-- A scope with the same lists, when the same variables belong to it and have the same names. -/
theorem Declares.congr (h : g.Declares s) (hvars : (g'.scopeAt s).vars = (g.scopeAt s).vars)
    (hset : (g'.scopeAt s).set = (g.scopeAt s).set)
    (hown : ∀ v, g'.LiveVariable v ∧ (g'.variableAt v).scope = s ↔ g.LiveVariable v ∧
      (g.variableAt v).scope = s)
    (hname : ∀ v ∈ (g.scopeAt s).vars, (g'.variableAt v).name = (g.variableAt v).name) :
    g'.Declares s where
  vars_nodup := hvars ▸ h.vars_nodup
  mem_vars := by
    intro v
    rw [hvars, h.mem_vars, hown]
  names_nodup := hset ▸ h.names_nodup
  declared_iff := by
    intro name v
    rw [declared?, hset, hvars, ← declared?, h.declared_iff]
    exact and_congr_right fun hv => by rw [hname v hv]

theorem Declares.of_view (hd : g'.declView = g.declView) (h : g.Declares s) : g'.Declares s := by
  refine h.congr (vars_congr hd s) (set_congr hd s) ?_ fun v _ => name_congr hd v
  intro v
  rw [liveVariable_congr hd, scope_congr hd]

theorem Declares.of_empty (hvars : (g.scopeAt s).vars = []) (hset : (g.scopeAt s).set = [])
    (hnone : ∀ v, ¬ (g.LiveVariable v ∧ (g.variableAt v).scope = s)) : g.Declares s := by
  refine ⟨?_, ?_, ?_, ?_⟩ <;> simp [declared?, hvars, hset, hnone]

theorem DeclarationLinks.declares (h : g.DeclarationLinks) (hs : g.LiveScope s) : g.Declares s :=
  ⟨h.vars_nodup hs, h.mem_vars hs, h.names_nodup hs, h.declared_iff hs⟩

/-- What a scope declares is a live variable of its own. -/
theorem DeclarationLinks.declared (h : g.DeclarationLinks) (hs : g.LiveScope s)
    (hv : g.declared? s name = some v) :
    g.LiveVariable v ∧ (g.variableAt v).scope = s ∧ (g.variableAt v).name = name :=
  (h.declares hs).declared hv

theorem DeclarationLinks.declared_self (h : g.DeclarationLinks) (hv : g.LiveVariable v) :
    g.declared? (g.variableAt v).scope (g.variableAt v).name = some v := by
  have hs := h.scope_live hv
  exact (h.declared_iff hs).mpr ⟨(h.mem_vars hs).mpr ⟨hv, rfl⟩, rfl⟩

theorem DeclarationLinks.of_declares
    (hlive : ∀ {v}, g.LiveVariable v → g.LiveScope (g.variableAt v).scope)
    (h : ∀ {s}, g.LiveScope s → g.Declares s) : g.DeclarationLinks :=
  ⟨hlive, fun hs => (h hs).vars_nodup, fun hs => (h hs).mem_vars, fun hs => (h hs).names_nodup,
    fun hs => (h hs).declared_iff⟩

end Declares

theorem DeclarationLinks.congr_live (hl : g'.LiveScope = g.LiveScope)
    (hd : g'.declView = g.declView) (h : g.DeclarationLinks) : g'.DeclarationLinks := by
  refine .of_declares ?_ ?_
  · intro v
    rw [hl, liveVariable_congr hd, scope_congr hd]
    exact h.scope_live
  · rw [hl]
    exact fun hs => (h.declares hs).of_view hd

theorem DeclarationLinks.congr (ht : g'.treeView = g.treeView)
    (hd : g'.declView = g.declView) (h : g.DeclarationLinks) : g'.DeclarationLinks :=
  h.congr_live (liveScope_congr ht) hd

theorem PlaceLinks.congr_live (hl : g'.LiveScope = g.LiveScope) (hp : g'.placeView = g.placeView)
    (h : g.PlaceLinks) : g'.PlaceLinks where
  source_live := by
    intro r
    rw [hl, liveReference_congr hp, source_congr hp]
    exact h.source_live
  mem_references := by
    intro s r
    rw [hl, liveReference_congr hp, references_congr hp, source_congr hp]
    exact h.mem_references

theorem PlaceLinks.congr (ht : g'.treeView = g.treeView) (hp : g'.placeView = g.placeView)
    (h : g.PlaceLinks) : g'.PlaceLinks :=
  h.congr_live (liveScope_congr ht) hp

theorem BindingLinks.congr_live (hv : g'.LiveVariable = g.LiveVariable)
    (hr : g'.LiveReference = g.LiveReference) (hb : g'.bindingView = g.bindingView)
    (h : g.BindingLinks) : g'.BindingLinks where
  mem_references := by
    intro v r
    rw [hr, bound_congr hb, resolved_congr hb]
    exact h.mem_references
  bound_live := by
    intro r v
    rw [hr, hv, resolved_congr hb]
    exact h.bound_live

theorem BindingLinks.congr (hd : g'.declView = g.declView) (hp : g'.placeView = g.placeView)
    (hb : g'.bindingView = g.bindingView) (h : g.BindingLinks) : g'.BindingLinks :=
  h.congr_live (liveVariable_congr hd) (liveReference_congr hp) hb

theorem ThroughLists.congr (ht : g'.treeView = g.treeView) (hp : g'.placeView = g.placeView)
    (hth : g'.throughView = g.throughView) (h : g.ThroughLists) : g'.ThroughLists where
  live := by
    intro s r
    rw [liveScope_congr ht, liveReference_congr hp, through_congr hth]
    exact h.live
  nodup := by
    intro s
    rw [liveScope_congr ht, through_congr hth]
    exact h.nodup

/-- The flow of a reference reads its scope, its owner, and which scopes list it. -/
theorem Flow.congr {p q : Prop} (hl : g'.LiveScope = g.LiveScope) (hb : g'.Below = g.Below)
    (hs : (g'.referenceAt r).source = (g.referenceAt r).source) (ho : g'.owner? r = g.owner? r)
    (ht : ∀ {s}, g.LiveScope s → (r ∈ (g'.scopeAt s).through ↔ r ∈ (g.scopeAt s).through))
    (hpq : p ↔ q) (h : g.Flow p r) : g'.Flow q r where
  below_owner := by
    intro o
    rw [ho, hb, hs]
    exact h.below_owner
  mem_through := by
    intro s
    rw [hl]
    intro hlive
    rw [ht hlive, h.mem_through hlive, PassesThrough, PassesThrough, hb, hs, ho, hpq]
  settled_of_bound := by
    intro o
    rw [ho, ← hpq]
    exact h.settled_of_bound

/-- A reference that is free passes through all scopes from its own upward. -/
theorem Flow.of_free {p : Prop} {s : ScopeId} (ht : g'.treeView = g.treeView)
    (hs : (g'.referenceAt r).source = s) (ho : g'.owner? r = none)
    (hmem : ∀ {t}, g.LiveScope t → (r ∈ (g'.scopeAt t).through ↔ p ∧ g.Below s t)) :
    g'.Flow p r := by
  refine ⟨fun hu => ?_, ?_, fun hu => ?_⟩
  · cases ho.symm.trans hu
  · intro t
    rw [liveScope_congr ht]
    intro hlive
    rw [hmem hlive, PassesThrough, ho, hs, below_congr_tree ht]
    simp
  · cases ho.symm.trans hu

/-- A reference that is bound in a scope passes through the scopes between. -/
theorem Flow.of_bound {p : Prop} {s o : ScopeId} (ht : g'.treeView = g.treeView)
    (hs : (g'.referenceAt r).source = s) (ho : g'.owner? r = some o) (hp : p) (hso : g.Below s o)
    (hmem : ∀ {t}, g.LiveScope t →
      (r ∈ (g'.scopeAt t).through ↔ g.Below s t ∧ g.Below t o ∧ t ≠ o)) :
    g'.Flow p r := by
  refine ⟨fun hu => ?_, ?_, fun _ => hp⟩
  · obtain rfl := Option.some.inj (ho.symm.trans hu)
    rw [below_congr_tree ht, hs]
    exact hso
  · intro t
    rw [liveScope_congr ht]
    intro hlive
    rw [hmem hlive, PassesThrough, ho, hs, below_congr_tree ht]
    simp [hp]

/-- A change of what references are bound to and of what passes through the scopes is to be looked
at for the references left open alone. -/
theorem WellFormedBut.of_views (h : g.WellFormedBut settled open_) (ht : g'.treeView = g.treeView)
    (hd : g'.declView = g.declView) (hp : g'.placeView = g.placeView) (hb : g'.BindingLinks)
    (hth : g'.ThroughLists)
    (hres : ∀ r, ¬ open_ r → (g'.referenceAt r).resolved = (g.referenceAt r).resolved)
    (hmem : ∀ r s, ¬ open_ r → (r ∈ (g'.scopeAt s).through ↔ r ∈ (g.scopeAt s).through)) :
    g'.WellFormedBut settled open_ where
  tree := h.tree.congr ht
  declarations := h.declarations.congr ht hd
  places := h.places.congr ht hp
  bindings := hb
  through := hth
  flow := by
    intro r
    rw [liveReference_congr hp]
    intro hr hnot
    exact (h.flow hr hnot).congr (liveScope_congr ht) (below_congr_tree ht)
      (source_congr hp r) (owner_congr hd (hres r hnot)) (fun _ => hmem r _ hnot) Iff.rfl

end Loom.ScopeGraph
