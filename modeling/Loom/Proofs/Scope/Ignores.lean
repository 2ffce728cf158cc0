import Loom.Proofs.Scope.View

/-!
What a view does not read, and the edits that leave it alone for that.

An edit changes one kind of entry, or a few kinds one after the other. A view that does not read
them is kept for any arguments, live or not.
-/

namespace Loom.ScopeGraph

variable {rs : List ReferenceId} {vs : List VariableId} {β : Type}

section

variable (view : ScopeGraph → β)

/-- A view that does not read what passes through the scopes. -/
class IgnoresFlow : Prop where
  through : ∀ {g s} {f : Scope → List ReferenceId},
    view (g.modifyScope s fun x => { x with through := f x }) = view g := by exact rfl

/-- A view that does not read what references are bound to. -/
class IgnoresBindings : Prop where
  bound : ∀ {g v} {f : Variable → List ReferenceId},
    view (g.modifyVariable v fun x => { x with references := f x }) = view g := by exact rfl
  resolved : ∀ {g r} {f : Reference → Option VariableId},
    view (g.modifyReference r fun x => { x with resolved := f x }) = view g := by exact rfl

/-- A view that does not read where references are made. -/
class IgnoresPlaces : Prop where
  made : ∀ {g s} {f : Scope → List ReferenceId},
    view (g.modifyScope s fun x => { x with references := f x }) = view g := by exact rfl
  source : ∀ {g r s}, view (g.modifyReference r ({ · with source := s })) = view g := by exact rfl

/-- A view that does not read what is declared. -/
class IgnoresDecls : Prop where
  declared : ∀ {g s} {vars : Scope → List VariableId} {set : Scope → List (String × VariableId)},
    view (g.modifyScope s fun x => { x with vars := vars x, set := set x }) = view g := by exact rfl
  vars : ∀ {g : ScopeGraph} {vars}, view { g with vars } = view g := by exact rfl

/-- A view that does not read which references are left. -/
class IgnoresReferences :
    Prop extends IgnoresFlow view, IgnoresBindings view, IgnoresPlaces view where
  gone : ∀ {g r},
    view (g.modifyReference r ({ · with removed := true, resolved := none })) =
      view g := by exact rfl

/-- A view that reads nothing of what the scopes contain. -/
class IgnoresContents : Prop extends IgnoresReferences view, IgnoresDecls view

/-- A view that does not read the list of all references. -/
class IgnoresMentions : Prop where
  mentions : ∀ {g : ScopeGraph} {references index},
    view { g with references, identifierReferences := index } = view g

/-- A view that does not read which scope is where. -/
class IgnoresTree : Prop where
  links :
    ∀ {g s} {upper : Scope → Option ScopeId} {children : Scope →
      List ScopeId} {variableScope : Scope → ScopeId},
    view (g.modifyScope s fun x =>
      { x with upper := upper x, children := children x, variableScope := variableScope x }) = view g

end

instance : IgnoresContents treeView where
  through := treeView_modifyScope fun _ => ⟨rfl, rfl, rfl⟩
  made := treeView_modifyScope fun _ => ⟨rfl, rfl, rfl⟩
  declared := treeView_modifyScope fun _ => ⟨rfl, rfl, rfl⟩

instance : IgnoresMentions treeView := ⟨rfl⟩

instance : IgnoresReferences declView where
  through := declView_modifyScope fun _ => ⟨rfl, rfl⟩
  bound := declView_modifyVariable fun _ => ⟨rfl, rfl, rfl⟩
  made := declView_modifyScope fun _ => ⟨rfl, rfl⟩

instance : IgnoresMentions declView := ⟨rfl⟩

instance : IgnoresFlow placeView := ⟨placeView_modifyScope fun _ => rfl⟩

instance : IgnoresBindings placeView := ⟨rfl, placeView_modifyReference fun _ => ⟨rfl, rfl⟩⟩

instance : IgnoresDecls placeView := ⟨placeView_modifyScope fun _ => rfl, rfl⟩

instance : IgnoresFlow bindingView := ⟨rfl⟩

instance : IgnoresPlaces bindingView := ⟨rfl, bindingView_modifyReference fun _ => rfl⟩

instance : IgnoresBindings throughView := ⟨rfl, rfl⟩

instance : IgnoresPlaces throughView := ⟨throughView_modifyScope fun _ => rfl, rfl⟩

instance : IgnoresDecls throughView := ⟨throughView_modifyScope fun _ => rfl, rfl⟩

instance : IgnoresMentions throughView := ⟨rfl⟩

section Outline

variable {g g' : ScopeGraph} {s : ScopeId}

/-- The scopes with their kinds, their variable scopes and their places in the tree. -/
def outline (g : ScopeGraph) :
    Nat × (ScopeId → ScopeKind × ScopeId × Option ScopeId × List ScopeId × Bool) :=
  (g.scopes.size, fun s => ((g.scopeAt s).kind, (g.scopeAt s).variableScope, (g.scopeAt s).upper,
    (g.scopeAt s).children, (g.scopeAt s).removed))

theorem kind_eq_of_outline (h : g'.outline = g.outline) (s : ScopeId) :
    (g'.scopeAt s).kind = (g.scopeAt s).kind :=
  congrArg (fun x => (x.2 s).1) h

theorem variableScope_congr (h : g'.outline = g.outline) (s : ScopeId) :
    (g'.scopeAt s).variableScope = (g.scopeAt s).variableScope :=
  congrArg (fun x => (x.2 s).2.1) h

theorem treeView_of_outline (h : g'.outline = g.outline) : g'.treeView = g.treeView :=
  congrArg (fun x => (x.1, fun s => (x.2 s).2.2)) h

theorem outline_modifyScope {f : Scope → Scope} (hf : ∀ x, (f x).kind = x.kind ∧
      (f x).variableScope = x.variableScope ∧ (f x).upper = x.upper ∧ (f x).children = x.children ∧
      (f x).removed = x.removed) : (g.modifyScope s f).outline = g.outline := by
  unfold outline
  congr 1
  · simp
  · funext t
    exact field_modifyScope (fun x => (x.kind, x.variableScope, x.upper, x.children, x.removed))
      (fun x => by simp [hf x]) g s t

instance : IgnoresContents outline where
  through := outline_modifyScope fun _ => by simp
  made := outline_modifyScope fun _ => by simp
  declared := outline_modifyScope fun _ => by simp

instance : IgnoresMentions outline := ⟨rfl⟩

end Outline

variable (view : ScopeGraph → β) {g : ScopeGraph} {s src dst : ScopeId} {scopes : List ScopeId}
  {r : ReferenceId} {v w : VariableId} {name : String} {identifier : NodeId}

/-- A view that every step of a fold keeps is kept by the fold. -/
theorem view_foldl {α : Type} {f : ScopeGraph → α → ScopeGraph} (hf : ∀ g x, view (f g x) = view g)
    (xs : List α) (g : ScopeGraph) : view (xs.foldl f g) = view g := by
  induction xs generalizing g with
  | nil => rfl
  | cons x xs ih => rw [List.foldl_cons, ih, hf]

section Flow

variable [IgnoresFlow view]

theorem view_addThrough : view (g.addThrough s r) = view g := IgnoresFlow.through

theorem view_addThroughs : view (scopes.foldl (·.addThrough · r) g) = view g :=
  view_foldl view (fun _ _ => view_addThrough view) scopes g

theorem view_dropThrough : view (g.dropThrough scopes r) = view g :=
  view_foldl view (fun _ _ => IgnoresFlow.through) scopes g

end Flow

section Bindings

variable [IgnoresBindings view]

theorem view_link : view (g.link r v) = view g :=
  IgnoresBindings.bound.trans IgnoresBindings.resolved

variable [IgnoresFlow view]

theorem view_resolveAlong (g : ScopeGraph) (r : ReferenceId) (name : String) (path : List ScopeId) :
    view (g.resolveAlong r name path).2 = view g := by
  induction path generalizing g with
  | nil => rfl
  | cons s path ih =>
    unfold resolveAlong
    split
    · exact view_link view
    · exact (ih _).trans (view_addThrough view)

theorem view_rerouteReference (oldUppers path : List ScopeId) (g : ScopeGraph) (r : ReferenceId) :
    view (rerouteReference oldUppers path g r) = view g := by
  have hdrop : view (g.dropThrough oldUppers r) = view g := view_dropThrough view
  unfold rerouteReference
  dsimp only
  split
  · exact hdrop
  · split
    · split
      · exact (view_addThroughs view).trans hdrop
      · refine (view_resolveAlong view ..).trans (IgnoresBindings.resolved.trans ?_)
        exact IgnoresBindings.bound.trans hdrop
    · exact (view_resolveAlong view ..).trans hdrop

theorem view_rerouteAll {oldUppers path : List ScopeId} :
    view (rs.foldl (rerouteReference oldUppers path) g) = view g :=
  view_foldl view (view_rerouteReference view oldUppers path) rs g

theorem view_demote : view (g.demote scopes r) = view g := by
  unfold demote
  split
  · rfl
  · exact (view_addThroughs view).trans IgnoresBindings.resolved

theorem view_bindThrough : view ((g.link r v).dropThrough scopes r) = view g :=
  (view_dropThrough view).trans (view_link view)

theorem view_resolveThrough : view (g.resolveThrough s name v) = view g :=
  view_foldl view (fun _ _ => view_bindThrough view) _ _

end Bindings

section Places

variable [IgnoresPlaces view]

theorem view_adoptReference : view (g.adoptReference dst r) = view g :=
  IgnoresPlaces.made.trans IgnoresPlaces.source

theorem view_adoptReferences : view (rs.foldl (·.adoptReference dst ·) g) = view g :=
  view_foldl view (fun _ _ => view_adoptReference view) rs g

variable [IgnoresMentions view]

theorem view_pushReference {x : Reference} : view (g.pushReference x).2 = view g :=
  IgnoresPlaces.made.trans IgnoresMentions.mentions

theorem view_synthesizeReference [IgnoresFlow view] [IgnoresBindings view] {access : Access} :
    view (g.synthesizeReference identifier v s access).2 = view g :=
  (view_addThroughs view).trans (IgnoresBindings.bound.trans (view_pushReference view))

end Places

section References

variable [IgnoresReferences view]

theorem view_unlinkReference : view (g.unlinkReference r) = view g := by
  refine (view_dropThrough view).trans (IgnoresPlaces.made.trans ?_)
  split
  · exact IgnoresBindings.bound.trans IgnoresReferences.gone
  · exact IgnoresReferences.gone

theorem view_unlinkReferences : view (rs.foldl unlinkReference g) = view g :=
  view_foldl view (fun _ _ => view_unlinkReference view) rs g

end References

section Declarations

variable [IgnoresDecls view]

theorem view_createVariable : view (g.createVariable s name).2 = view g :=
  IgnoresDecls.declared.trans IgnoresDecls.vars

theorem view_ensureVariable : view (g.ensureVariable s name).2 = view g := by
  unfold ensureVariable
  split
  · rfl
  · exact view_createVariable view

theorem view_declare {kind : DefinitionKind} :
    view (g.declare s name identifier kind).2 = view g := by
  unfold declare
  dsimp only
  split
  · exact view_ensureVariable view
  · exact IgnoresDecls.vars.trans (view_ensureVariable view)

variable [IgnoresBindings view]

theorem view_foldVariable : view (g.foldVariable v w) = view g :=
  IgnoresDecls.vars.trans
    ((view_foldl view (fun _ _ => IgnoresBindings.resolved) ..).trans IgnoresDecls.vars)

theorem view_adoptVariable : view (g.adoptVariable dst v) = view g := by
  have hmove : view ((g.modifyVariable v ({ · with scope := dst })).modifyScope dst fun sc =>
      { sc with vars := pushNew sc.vars v, set := setInsert sc.set (g.variableAt v).name v }) = view g :=
    IgnoresDecls.declared.trans IgnoresDecls.vars
  unfold adoptVariable
  dsimp only
  split
  · split
    · exact view_foldVariable view
    · exact hmove
  · exact hmove

theorem view_adoptVariables : view (vs.foldl (·.adoptVariable dst ·) g) = view g :=
  view_foldl view (fun _ _ => view_adoptVariable view) vs g

variable [IgnoresFlow view]

theorem view_deleteVariable : view (g.deleteVariable v) = view g := by
  refine (view_foldl view (fun _ _ => view_demote view) _ _).trans ?_
  exact IgnoresDecls.declared.trans IgnoresDecls.vars

theorem view_deleteVariables : view (vs.foldl deleteVariable g) = view g :=
  view_foldl view (fun _ _ => view_deleteVariable view) vs g

theorem view_declareImplicit : view (g.declareImplicit s name).2 = view g :=
  (view_resolveThrough view).trans (view_ensureVariable view)

end Declarations

section Contents

variable [IgnoresContents view] {a : Arena}

theorem view_removeOccurrence : view (g.removeOccurrence v identifier) = view g := by
  unfold removeOccurrence
  dsimp only
  split
  · exact (view_deleteVariable view).trans (IgnoresDecls.vars.trans (view_unlinkReferences view))
  · exact IgnoresDecls.vars.trans (view_unlinkReferences view)

theorem view_removeBinding : view (g.removeBinding a s identifier) = view g := by
  unfold removeBinding
  split
  · exact view_removeOccurrence view
  · rfl

theorem view_removeVariable {pattern : NodeId} : view (g.removeVariable a pattern s) = view g :=
  view_foldl view (fun _ _ => view_removeBinding view) _ _

end Contents

/-- What declaring and making up references keep is kept by resolving stores. -/
theorem resolveStores_induct {P : ScopeGraph → Prop}
    (hdeclare : ∀ {g s name}, P g → P (g.declareImplicit s name).2)
    (hsynthesize : ∀ {g identifier v s access}, P g →
      P (g.synthesizeReference identifier v s access).2) (h : P g) :
    P g.resolveStores.2 := by
  have hstep : ∀ {g : ScopeGraph} name, P g → P (g.resolveStore name).2 := by
    intro g name hg
    unfold resolveStore
    dsimp only
    split
    · exact hg
    · have hdecl : P (g.declareImplicit g.topScope name).2 := hdeclare hg
      generalize g.declareImplicit g.topScope name = declared at hdecl ⊢
      exact List.foldlRecOn _ _ hdecl fun _ hg _ _ => hsynthesize hg
  unfold resolveStores
  generalize g.storeCandidates = candidates
  generalize [] = names
  induction candidates generalizing g names with
  | nil => exact h
  | cons name candidates ih => exact ih (hstep name h) _

theorem view_resolveStores [IgnoresContents view] [IgnoresMentions view] :
    view g.resolveStores.2 = view g :=
  resolveStores_induct (P := fun g' => view g' = view g) ((view_declareImplicit view).trans)
    ((view_synthesizeReference view).trans) rfl

end Loom.ScopeGraph
