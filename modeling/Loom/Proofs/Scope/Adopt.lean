import Loom.Proofs.Scope.Declare
import Loom.Proofs.Scope.Reference

/-!
Moving the references and the variables of one scope into another.

A variable whose name the other scope declares already is folded into the variable there. In either
case the references bound to it are bound to a variable of the other scope afterwards.
-/

open List

namespace Loom.ScopeGraph

variable {β : Type} {x : VariableId} {rs : List ReferenceId} {vs : List VariableId}
  {f : Scope → Scope} {s t src dst : ScopeId} {g : ScopeGraph}

/-- The scope that stands for a scope once `src` has become a part of `dst`. -/
def redirect (src dst s : ScopeId) : ScopeId := if s = src then dst else s

@[simp] theorem redirect_self : redirect src dst src = dst := if_pos rfl

theorem redirect_of_ne (h : s ≠ src) : redirect src dst s = s := if_neg h

theorem redirect_ne (hne : dst ≠ src) (s : ScopeId) : redirect src dst s ≠ src := by
  unfold redirect
  split
  · exact hne
  · assumption

/-! References. -/

section References

variable {r q : ReferenceId}

theorem source_adoptReference (hr : r < g.references.size) :
    ((g.adoptReference dst r).referenceAt q).source = if q = r then dst
      else (g.referenceAt q).source := by
  have hget : (g.adoptReference dst r).referenceAt q =
      (g.modifyReference r ({ · with source := dst })).referenceAt q := rfl
  rw [hget, referenceAt_modifyReference]
  by_cases hq : q = r <;> simp [hq, hr]

theorem liveReference_adoptReference :
    (g.adoptReference dst r).LiveReference = g.LiveReference := by
  funext q
  have hsize : (g.adoptReference dst r).references.size = g.references.size :=
    size_modifyReference ..
  have hrem : ((g.adoptReference dst r).referenceAt q).removed = (g.referenceAt q).removed :=
    field_modifyReference (f := fun x => { x with source := dst }) (·.removed) (fun _ => rfl) g r q
  rw [LiveReference, LiveReference, hsize, hrem]

theorem references_adoptReference (hd : dst < g.scopes.size) (t : ScopeId) :
    ((g.adoptReference dst r).scopeAt t).references =
      if t = dst then (g.scopeAt t).references ++ [r] else (g.scopeAt t).references := by
  have hget : (g.adoptReference dst r).scopeAt t =
      (g.modifyScope dst fun sc => { sc with references := sc.references ++ [r] }).scopeAt t := rfl
  rw [hget, scopeAt_modifyScope]
  by_cases ht : t = dst <;> simp [ht, hd]

theorem source_adoptReferences (hrs : ∀ r ∈ rs, g.LiveReference r) (q : ReferenceId) :
    ((rs.foldl (·.adoptReference dst ·) g).referenceAt q).source =
      if q ∈ rs then dst else (g.referenceAt q).source := by
  induction rs generalizing g with
  | nil => simp
  | cons r rs ih =>
    have hrs' : ∀ q ∈ rs, (g.adoptReference dst r).LiveReference q := by
      intro q hq
      rw [liveReference_adoptReference]
      exact hrs q (mem_cons_of_mem _ hq)
    rw [foldl_cons, ih hrs', source_adoptReference (hrs r (by simp)).1]
    by_cases hq : q = r <;> by_cases hmem : q ∈ rs <;> simp [hq, hmem]

theorem references_adoptReferences (hd : dst < g.scopes.size) (t : ScopeId) :
    ((rs.foldl (·.adoptReference dst ·) g).scopeAt t).references =
      if t = dst then (g.scopeAt t).references ++ rs else (g.scopeAt t).references := by
  induction rs generalizing g with
  | nil => simp
  | cons r rs ih =>
    have hd' : dst < (g.adoptReference dst r).scopes.size := by
      rw [size_congr (view_adoptReference treeView)]
      exact hd
    rw [foldl_cons, ih hd', references_adoptReference hd]
    by_cases ht : t = dst <;> simp [ht]

/-- The references of a scope taken over by another one. -/
def takeReferences (g : ScopeGraph) (src dst : ScopeId) : ScopeGraph :=
  (g.scopeAt src).references.foldl (·.adoptReference dst ·)
    (g.modifyScope src ({ · with references := [] }))

theorem view_takeReferences (view : ScopeGraph → β) [IgnoresPlaces view] :
    view (g.takeReferences src dst) = view g :=
  (view_adoptReferences view).trans IgnoresPlaces.made

theorem liveReference_takeReferences : (g.takeReferences src dst).LiveReference = g.LiveReference :=
  view_foldl LiveReference (fun _ _ => liveReference_adoptReference) ..

theorem DeclarationLinks.takeReferences (h : g.DeclarationLinks) :
    (g.takeReferences src dst).DeclarationLinks :=
  h.congr (view_takeReferences treeView) (view_takeReferences declView)

theorem BindingLinks.takeReferences (h : g.BindingLinks) :
    (g.takeReferences src dst).BindingLinks :=
  h.congr_live (liveVariable_congr (view_takeReferences declView))
    liveReference_takeReferences (view_takeReferences bindingView)

theorem owner_takeReferences : (g.takeReferences src dst).owner? r = g.owner? r :=
  owner_congr (view_takeReferences declView) (resolved_congr (view_takeReferences bindingView) r)

theorem source_takeReferences (h : g.PlaceLinks) (hs : g.LiveScope src) (hr : g.LiveReference r) :
    ((g.takeReferences src dst).referenceAt r).source = redirect src dst
      (g.referenceAt r).source := by
  have hrs : ∀ q ∈ (g.scopeAt src).references, g.LiveReference q := fun q hq =>
    ((h.mem_references hs).mp hq).1
  have hmem : r ∈ (g.scopeAt src).references ↔ (g.referenceAt r).source = src := by
    rw [h.mem_references hs]
    exact and_iff_right hr
  rw [takeReferences, source_adoptReferences (g := g.modifyScope src _) hrs]
  simp only [hmem]
  rfl

theorem references_takeReferences (hs : g.LiveScope src) (hd : g.LiveScope dst) (hne : dst ≠ src)
    (t : ScopeId) : ((g.takeReferences src dst).scopeAt t).references =
      if t = dst then (g.scopeAt dst).references ++ (g.scopeAt src).references
      else if t = src then [] else (g.scopeAt t).references := by
  have hd' : dst < (g.modifyScope src ({ · with references := [] })).scopes.size := by
    rw [size_modifyScope]
    exact hd.1
  rw [takeReferences, references_adoptReferences hd', scopeAt_modifyScope]
  by_cases ht : t = dst
  · subst ht
    simp [hne]
  · by_cases hts : t = src <;> simp [ht, hts, hs.1, Ne.symm hne]

theorem PlaceLinks.takeReferences (h : g.PlaceLinks) (hs : g.LiveScope src) (hd : g.LiveScope dst)
    (hne : dst ≠ src) : (g.takeReferences src dst).PlaceLinks := by
  have hlive : (g.takeReferences src dst).LiveScope = g.LiveScope :=
    liveScope_congr (view_takeReferences treeView)
  refine ⟨?_, ?_⟩
  · intro r
    rw [liveReference_takeReferences, hlive]
    intro hr
    rw [source_takeReferences h hs hr, redirect]
    split
    · exact hd
    · exact h.source_live hr
  · intro t r
    rw [liveReference_takeReferences, hlive, references_takeReferences hs hd hne]
    intro ht
    by_cases hr : g.LiveReference r
    · rw [source_takeReferences h hs hr, redirect]
      by_cases htd : t = dst
      · subst htd
        simp only [if_true, mem_append, h.mem_references ht, h.mem_references hs, hr, true_and]
        by_cases hsrc : (g.referenceAt r).source = src <;> simp [hsrc]
      · by_cases hts : t = src
        · subst hts
          by_cases hsrc : (g.referenceAt r).source = t <;> simp [hne, Ne.symm hne, hsrc]
        · by_cases hsrc : (g.referenceAt r).source = src
          · simp [htd, hts, h.mem_references ht, hr, hsrc, Ne.symm htd, Ne.symm hts]
          · simp [htd, hts, h.mem_references ht, hr, hsrc]
    · have hdead : ∀ {t}, g.LiveScope t → r ∉ (g.scopeAt t).references := fun ht hmem =>
        hr ((h.mem_references ht).mp hmem).1
      by_cases htd : t = dst
      · simp [htd, hr, hdead hd, hdead hs]
      · by_cases hts : t = src
        · subst hts
          simp [htd, hr]
        · simp [htd, hts, hr, hdead ht]

end References

/-! Variables. -/

section Variables

variable {v w : VariableId} {pending : List VariableId}

/-- A scope is about to lose its variables: it lists none any more, and those that are left to move
are `pending`. All other scopes list theirs. -/
structure Adopting (g : ScopeGraph) (src : ScopeId) (pending : List VariableId) : Prop where
  scope_live : ∀ {v}, g.LiveVariable v → g.LiveScope (g.variableAt v).scope
  mem_pending : ∀ {v}, v ∈ pending ↔ g.LiveVariable v ∧ (g.variableAt v).scope = src
  pending_nodup : pending.Nodup
  declares : ∀ {s}, g.LiveScope s → s ≠ src → g.Declares s

/-- A variable that is still to move is not one of the variables of the scope it moves to. -/
theorem Adopting.declared_ne (h : g.Adopting src pending) (hd : g.LiveScope dst) (hne : dst ≠ src)
    (hx : x ∈ pending) (n : String) : g.declared? dst n ≠ some x := by
  intro hn
  exact hne (((h.declares hd hne).declared hn).2.1.symm.trans (h.mem_pending.mp hx).2)

/-- The variable put into a scope that does not declare its name. -/
def moveVariable (g : ScopeGraph) (s : ScopeId) (v : VariableId) : ScopeGraph :=
  (g.modifyVariable v ({ · with scope := s })).modifyScope s fun sc =>
    { sc with vars := pushNew sc.vars v, set := setInsert sc.set (g.variableAt v).name v }

theorem adoptVariable_cases (g : ScopeGraph) (s : ScopeId) (v : VariableId) :
    (∃ w, g.declared? s (g.variableAt v).name = some w ∧ w ≠ v ∧
      g.adoptVariable s v = g.foldVariable v w) ∨
    (∀ w, g.declared? s (g.variableAt v).name = some w → w = v) ∧
      g.adoptVariable s v = g.moveVariable s v := by
  unfold adoptVariable
  dsimp only
  split
  · rename_i w hw
    by_cases hwv : w = v
    · refine .inr ⟨?_, ?_⟩
      · intro x hx
        cases hw.symm.trans hx
        exact hwv
      · simp [hwv]
        rfl
    · exact .inl ⟨w, hw, hwv, by simp [hwv]⟩
  · rename_i hnone
    refine .inr ⟨?_, rfl⟩
    intro x hx
    cases hnone.symm.trans hx

/-! Moving a variable. -/

theorem view_moveVariable (view : ScopeGraph → β) [IgnoresDecls view] :
    view (g.moveVariable dst v) = view g :=
  IgnoresDecls.declared.trans IgnoresDecls.vars

theorem bindingView_moveVariable : (g.moveVariable dst v).bindingView = g.bindingView :=
  bindingView_modifyVariable fun _ => rfl

theorem variableAt_moveVariable (hv : g.LiveVariable v) (w : VariableId) :
    (g.moveVariable dst v).variableAt w = if w = v then { g.variableAt v with scope := dst }
      else g.variableAt w := by
  have hget : (g.moveVariable dst v).variableAt w =
      (g.modifyVariable v ({ · with scope := dst })).variableAt w := rfl
  rw [hget, variableAt_modifyVariable]
  by_cases hw : w = v <;> simp [hw, hv.1]

theorem liveVariable_moveVariable (hv : g.LiveVariable v) :
    (g.moveVariable dst v).LiveVariable = g.LiveVariable := by
  funext w
  have hsize : (g.moveVariable dst v).vars.size = g.vars.size := size_modifyVariable ..
  rw [LiveVariable, LiveVariable, hsize, variableAt_moveVariable hv]
  by_cases hw : w = v <;> simp [hw]

theorem name_moveVariable (hv : g.LiveVariable v) (w : VariableId) :
    ((g.moveVariable dst v).variableAt w).name = (g.variableAt w).name := by
  rw [variableAt_moveVariable hv]
  by_cases hw : w = v <;> simp [hw]

theorem scope_moveVariable (hv : g.LiveVariable v) (w : VariableId) :
    ((g.moveVariable dst v).variableAt w).scope = if w = v then dst
      else (g.variableAt w).scope := by
  rw [variableAt_moveVariable hv]
  by_cases hw : w = v <;> simp [hw]

theorem scopeAt_moveVariable (hd : g.LiveScope dst) (t : ScopeId) :
    (g.moveVariable dst v).scopeAt t = if t = dst then
        { g.scopeAt dst with
          vars := pushNew (g.scopeAt dst).vars v
          set := setInsert (g.scopeAt dst).set (g.variableAt v).name v }
      else g.scopeAt t := by
  have hget : (g.moveVariable dst v).scopeAt t = (g.modifyScope dst fun sc =>
        { sc with
          vars := pushNew sc.vars v
          set := setInsert sc.set (g.variableAt v).name v }).scopeAt t := rfl
  rw [hget, scopeAt_modifyScope]
  by_cases ht : t = dst <;> simp [ht, hd.1]

theorem Adopting.moveVariable (h : g.Adopting src (v :: pending)) (hd : g.LiveScope dst)
    (hne : dst ≠ src) (hnew : g.declared? dst (g.variableAt v).name = none) :
    (g.moveVariable dst v).Adopting src pending := by
  obtain ⟨hv, hscope⟩ := h.mem_pending.mp mem_cons_self
  obtain ⟨hnotin, hnodup⟩ := nodup_cons.mp h.pending_nodup
  have hlive : (g.moveVariable dst v).LiveScope = g.LiveScope :=
    liveScope_congr (view_moveVariable treeView)
  refine ⟨?_, ?_, hnodup, ?_⟩
  · intro w
    rw [liveVariable_moveVariable hv, hlive, scope_moveVariable hv]
    intro hw
    split
    · exact hd
    · exact h.scope_live hw
  · intro w
    rw [liveVariable_moveVariable hv, scope_moveVariable hv]
    by_cases hw : w = v
    · subst hw
      simp [hnotin, hne]
    · rw [if_neg hw, ← h.mem_pending]
      simp [hw]
  · intro t
    rw [hlive]
    intro ht hts
    have hout : v ∉ (g.scopeAt t).vars :=
      fun hmem => hts (((h.declares ht hts).mem_vars.mp hmem).2.symm.trans hscope)
    have hscopeAt := scopeAt_moveVariable hd (v := v) t
    by_cases htd : t = dst
    · subst htd
      rw [if_pos rfl] at hscopeAt
      refine (h.declares hd hne).insert hnew hout ?_ (by rw [hscopeAt]) ?_ (name_moveVariable hv v)
        fun w _ => name_moveVariable hv w
      · rw [hscopeAt]
        simp [pushNew, hout]
      · intro w
        rw [liveVariable_moveVariable hv, scope_moveVariable hv]
        by_cases hw : w = v <;> simp [hw, hv]
    · rw [if_neg htd] at hscopeAt
      refine (h.declares ht hts).congr (by rw [hscopeAt]) (by rw [hscopeAt]) ?_ fun w _ => name_moveVariable hv w
      intro w
      rw [liveVariable_moveVariable hv, scope_moveVariable hv]
      by_cases hw : w = v
      · simp [hw, hscope, Ne.symm htd, Ne.symm hts]
      · rw [if_neg hw]

theorem BindingLinks.moveVariable (h : g.BindingLinks) (hv : g.LiveVariable v) :
    (g.moveVariable dst v).BindingLinks :=
  h.congr_live (liveVariable_moveVariable hv) (liveReference_congr (view_moveVariable placeView))
    bindingView_moveVariable

/-! Folding a variable into another. -/

/-- The graph with references bound to another variable, which does not list them yet. -/
def rebindAll (g : ScopeGraph) (w : VariableId) (rs : List ReferenceId) : ScopeGraph :=
  rs.foldl (fun g r => g.modifyReference r ({ · with resolved := some w })) g

theorem vars_rebindAll : (g.rebindAll w rs).vars = g.vars := by
  apply view_foldl (·.vars)
  intro g r
  rfl

theorem resolved_rebindAll {rs : List ReferenceId} (hrs : ∀ r ∈ rs, g.LiveReference r)
    (q : ReferenceId) :
    ((g.rebindAll w rs).referenceAt q).resolved = if q ∈ rs then some w
      else (g.referenceAt q).resolved := by
  induction rs generalizing g with
  | nil => simp [rebindAll]
  | cons r rs ih =>
    have hr := (hrs r (by simp)).1
    have hrs' : ∀ q ∈ rs, (g.modifyReference r ({ · with resolved := some w })).LiveReference q :=
      fun q hq => (hrs q (mem_cons_of_mem _ hq)).of_place
        (placeView_modifyReference fun _ => ⟨rfl, rfl⟩)
    rw [rebindAll, foldl_cons, ← rebindAll, ih hrs', referenceAt_modifyReference]
    by_cases hq : q = r <;> by_cases hmem : q ∈ rs <;> simp [hq, hmem, hr]

theorem scopeAt_foldVariable (t : ScopeId) : (g.foldVariable v w).scopeAt t = g.scopeAt t := by
  apply view_foldl (·.scopeAt t)
  intro g r
  rfl

theorem variableAt_foldVariable (hv : g.LiveVariable v) (hw : g.LiveVariable w) (hne : w ≠ v)
    (x : VariableId) : (g.foldVariable v w).variableAt x =
      if x = v then
        { g.variableAt v with removed := true, identifiers := [], defs := [], references := [] }
      else if x = w then
        { g.variableAt w with
          identifiers := (g.variableAt w).identifiers ++ (g.variableAt v).identifiers
          defs := (g.variableAt w).defs ++ (g.variableAt v).defs
          references := (g.variableAt w).references ++ (g.variableAt v).references }
      else g.variableAt x := by
  have hvars : (g.foldVariable v w).vars = ((g.modifyVariable v
        ({ · with removed := true, identifiers := [], defs := [], references := [] })).modifyVariable w fun t =>
            { t with
              identifiers := t.identifiers ++ (g.variableAt v).identifiers
              defs := t.defs ++ (g.variableAt v).defs
              references := t.references ++ (g.variableAt v).references }).vars := by
    unfold foldVariable
    dsimp only [modifyVariable]
    rw [← rebindAll, vars_rebindAll]
  refine (congrArg (·.getD x default) hvars).trans ?_
  show ScopeGraph.variableAt (modifyVariable (modifyVariable g v _) w _) x = _
  rw [variableAt_modifyVariable, variableAt_modifyVariable, variableAt_modifyVariable]
  by_cases hxv : x = v
  · subst hxv
    simp [hv.1, Ne.symm hne]
  · by_cases hxw : x = w
    · subst hxw
      simp [hne, hw.1]
    · simp [hxv, hxw]

theorem resolved_foldVariable (h : g.BindingLinks) (q : ReferenceId) :
    ((g.foldVariable v w).referenceAt q).resolved =
    if q ∈ (g.variableAt v).references then some w else (g.referenceAt q).resolved := by
  have hrs : ∀ r ∈ (g.variableAt v).references, g.LiveReference r := fun r hr =>
    (h.mem_references.mp hr).1
  exact resolved_rebindAll (g := g.modifyVariable v _) hrs q

section

variable (hv : g.LiveVariable v) (hw : g.LiveVariable w) (hne : w ≠ v)

include hv hw hne

theorem liveVariable_foldVariable :
    (g.foldVariable v w).LiveVariable x ↔ g.LiveVariable x ∧ x ≠ v := by
  have hsize : (g.foldVariable v w).vars.size = g.vars.size := by
    unfold foldVariable
    rw [size_modifyVariable, ← rebindAll, vars_rebindAll, size_modifyVariable]
  rw [LiveVariable, LiveVariable, variableAt_foldVariable hv hw hne]
  split_ifs <;> simp [*]

theorem name_foldVariable (x : VariableId) :
    ((g.foldVariable v w).variableAt x).name = (g.variableAt x).name := by
  rw [variableAt_foldVariable hv hw hne]
  split_ifs <;> simp [*]

theorem scope_foldVariable (x : VariableId) :
    ((g.foldVariable v w).variableAt x).scope = (g.variableAt x).scope := by
  rw [variableAt_foldVariable hv hw hne]
  split_ifs <;> simp [*]

end

theorem Adopting.foldVariable (h : g.Adopting src (v :: pending)) (hw : g.LiveVariable w)
    (hwv : w ≠ v) : (g.foldVariable v w).Adopting src pending := by
  obtain ⟨hv, hscope⟩ := h.mem_pending.mp mem_cons_self
  obtain ⟨hnotin, hnodup⟩ := nodup_cons.mp h.pending_nodup
  have hlive : (g.foldVariable v w).LiveScope = g.LiveScope :=
    liveScope_congr (view_foldVariable treeView)
  refine ⟨?_, ?_, hnodup, ?_⟩
  · intro x
    rw [liveVariable_foldVariable hv hw hwv, hlive, scope_foldVariable hv hw hwv]
    intro hx
    exact h.scope_live hx.1
  · intro x
    have hmem : x ∈ v :: pending ↔ g.LiveVariable x ∧ (g.variableAt x).scope = src := h.mem_pending
    rw [liveVariable_foldVariable hv hw hwv, scope_foldVariable hv hw hwv]
    by_cases hx : x = v
    · subst hx
      simp [hnotin]
    · simp only [mem_cons, hx, false_or] at hmem
      tauto
  · intro t
    rw [hlive]
    intro ht hts
    refine (h.declares ht hts).congr (by rw [scopeAt_foldVariable]) (by rw [scopeAt_foldVariable])
      ?_ fun x _ => name_foldVariable hv hw hwv x
    intro x
    rw [liveVariable_foldVariable hv hw hwv, scope_foldVariable hv hw hwv]
    by_cases hx : x = v
    · simp [hx, hscope, Ne.symm hts]
    · simp [hx]

theorem BindingLinks.foldVariable (h : g.BindingLinks) (hv : g.LiveVariable v)
    (hw : g.LiveVariable w) (hne : w ≠ v) : (g.foldVariable v w).BindingLinks := by
  have hbound : ∀ {x q}, q ∈ (g.variableAt x).references ↔
      g.LiveReference q ∧ (g.referenceAt q).resolved = some x := h.mem_references
  refine ⟨?_, ?_⟩
  · intro x q
    rw [liveReference_congr (view_foldVariable placeView), resolved_foldVariable h,
      variableAt_foldVariable hv hw hne]
    by_cases hq : q ∈ (g.variableAt v).references
    · obtain ⟨hlive, hres⟩ := hbound.mp hq
      by_cases hxv : x = v
      · simp [hxv, hq, hne]
      · by_cases hxw : x = w
        · simp [hxw, hq, hlive, hne]
        · have hnot : q ∉ (g.variableAt x).references := by
            rw [hbound, hres]
            simp [Ne.symm hxv]
          simp [hxv, hxw, hq, hnot, Ne.symm hxw]
    · by_cases hxv : x = v
      · subst hxv
        rw [if_neg hq, ← hbound]
        simp [hq]
      · by_cases hxw : x = w
        · simp [hxw, hq, hne, hbound]
        · simp [hxv, hxw, hq, hbound]
  · intro q x
    rw [liveReference_congr (view_foldVariable placeView), resolved_foldVariable h,
      liveVariable_foldVariable hv hw hne]
    intro hq hx
    split at hx
    · cases hx
      exact ⟨hw, hne⟩
    · rename_i hnot
      refine ⟨h.bound_live hq hx, ?_⟩
      rintro rfl
      exact hnot (hbound.mpr ⟨hq, hx⟩)

/-! Adopting all variables of a scope. -/

/-- The list of another scope is left alone. -/
theorem vars_adoptVariable (ht : t ≠ dst) :
    ((g.adoptVariable dst v).scopeAt t).vars = (g.scopeAt t).vars := by
  rcases adoptVariable_cases g dst v with ⟨w, -, -, heq⟩ | ⟨-, heq⟩
  · rw [heq, scopeAt_foldVariable]
  · rw [heq, moveVariable, scopeAt_modifyScope, if_neg fun he => ht he.1]
    rfl

/-- A variable becomes one with that of its name in `dst`, or it moves there. -/
theorem Adopting.cases (h : g.Adopting src (v :: pending)) (hd : g.LiveScope dst)
    (hne : dst ≠ src) :
    (∃ w, g.declared? dst (g.variableAt v).name = some w ∧ g.LiveVariable w ∧ w ≠ v ∧
      g.adoptVariable dst v = g.foldVariable v w) ∨
    g.declared? dst (g.variableAt v).name = none ∧ g.adoptVariable dst v =
      g.moveVariable dst v := by
  rcases adoptVariable_cases g dst v with ⟨w, hw, hwv, heq⟩ | ⟨hfree, heq⟩
  · exact .inl ⟨w, hw, ((h.declares hd hne).declared hw).1, hwv, heq⟩
  · refine .inr ⟨?_, heq⟩
    rw [Option.eq_none_iff_forall_ne_some]
    intro w hw
    cases hfree w hw
    exact h.declared_ne hd hne mem_cons_self _ hw

theorem Adopting.adoptVariable (h : g.Adopting src (v :: pending)) (hb : g.BindingLinks)
    (hd : g.LiveScope dst) (hne : dst ≠ src) :
    (g.adoptVariable dst v).Adopting src pending ∧ (g.adoptVariable dst v).BindingLinks := by
  obtain ⟨hv, -⟩ := h.mem_pending.mp mem_cons_self
  rcases h.cases hd hne with ⟨w, -, hw, hwv, heq⟩ | ⟨hnew, heq⟩ <;> rw [heq]
  · exact ⟨h.foldVariable hw hwv, hb.foldVariable hv hw hwv⟩
  · exact ⟨h.moveVariable hd hne hnew, hb.moveVariable hv⟩

theorem vars_adoptVariables (ht : t ≠ dst) :
    ((vs.foldl (·.adoptVariable dst ·) g).scopeAt t).vars = (g.scopeAt t).vars :=
  view_foldl (fun g => (g.scopeAt t).vars) (fun _ _ => vars_adoptVariable ht) vs g

theorem DeclarationLinks.adopting (h : g.DeclarationLinks) (hs : g.LiveScope src) :
    g.Adopting src (g.scopeAt src).vars :=
  ⟨h.scope_live, h.mem_vars hs, h.vars_nodup hs, fun ht _ => h.declares ht⟩

theorem Adopting.congr_live {g' : ScopeGraph} (hl : g'.LiveScope = g.LiveScope)
    (hd : g'.declView = g.declView) (h : g.Adopting src pending) : g'.Adopting src pending := by
  refine ⟨?_, ?_, h.pending_nodup, ?_⟩
  · intro v
    rw [hl, liveVariable_congr hd, scope_congr hd]
    exact h.scope_live
  · intro v
    rw [liveVariable_congr hd, scope_congr hd]
    exact h.mem_pending
  · rw [hl]
    exact fun ht hts => (h.declares ht hts).of_view hd

theorem liveScope_modifyScope (hf : ∀ x, (f x).removed = x.removed) :
    (g.modifyScope s f).LiveScope = g.LiveScope := by
  funext t
  rw [LiveScope, LiveScope, size_modifyScope, field_modifyScope (·.removed) hf]

theorem LiveScope.modify (ht : g.LiveScope t)
    (hf : ∀ x, (f x).removed = x.removed) : (g.modifyScope s f).LiveScope t := by
  rw [liveScope_modifyScope hf]
  exact ht

/-- The lists of `src` itself do not matter while its variables move. -/
theorem Adopting.modifySource (h : g.Adopting src pending)
    (hf : ∀ x, (f x).removed = x.removed) : (g.modifyScope src f).Adopting src pending := by
  have hlive : (g.modifyScope src f).LiveScope = g.LiveScope := liveScope_modifyScope hf
  refine ⟨?_, h.mem_pending, h.pending_nodup, ?_⟩
  · rw [hlive]
    exact h.scope_live
  · intro t
    rw [hlive]
    intro ht hts
    have hother : (g.modifyScope src f).scopeAt t = g.scopeAt
        t := by rw [scopeAt_modifyScope, if_neg fun he => hts he.1]
    exact (h.declares ht hts).congr (by rw [hother]) (by rw [hother]) (fun _ => Iff.rfl)
      fun _ _ => rfl

/-- The variables of a scope taken over by another one; `f` is what happens to the scope itself
before. -/
def takeVariables (g : ScopeGraph) (src dst : ScopeId) (f : Scope → Scope) : ScopeGraph :=
  (g.scopeAt src).vars.foldl (·.adoptVariable dst ·) (g.modifyScope src f)

theorem view_takeVariables (view : ScopeGraph → β) [IgnoresDecls view] [IgnoresBindings view]
    (hf : view (g.modifyScope src f) = view g) : view (g.takeVariables src dst f) = view g :=
  (view_adoptVariables view).trans hf

theorem throughView_takeVariables :
    (g.takeVariables src dst f).throughView = (g.modifyScope src f).throughView :=
  view_adoptVariables throughView

/-- A scope that has given away all variables and lists none is as any other. -/
theorem Adopting.links (h : g.Adopting src []) (hvars : (g.scopeAt src).vars = [])
    (hset : (g.scopeAt src).set = []) : g.DeclarationLinks := by
  refine .of_declares h.scope_live ?_
  intro t ht
  by_cases hts : t = src
  · subst hts
    exact .of_empty hvars hset fun v hv => not_mem_nil (h.mem_pending.mpr hv)
  · exact h.declares ht hts

end Variables

end Loom.ScopeGraph
