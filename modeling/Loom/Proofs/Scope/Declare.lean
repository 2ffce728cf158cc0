import Loom.Proofs.Scope.Build

/-!
Declarations keep a scope graph well-formed, also those that bind references which were free before.
-/

open List

namespace Loom.ScopeGraph

variable {set : List (String × VariableId)} {other name : String} {s : ScopeId} {v : VariableId}
  {g : ScopeGraph} {settled open_ : ReferenceId → Prop}

/-! The tables of names. -/

theorem lookup_setInsert :
    (setInsert set name v).lookup other = if other = name then some v else set.lookup other := by
  induction set with
  | nil =>
    by_cases h : other = name
    · simp [setInsert, h]
    · simp [setInsert, lookup_cons, beq_eq_false_iff_ne.mpr h, h]
  | cons e rest ih =>
    obtain ⟨n, w⟩ := e
    by_cases h : other = n
    · subst h
      by_cases hn : other = name <;> simp [setInsert, hn]
    · have hbeq := beq_eq_false_iff_ne.mpr h
      by_cases hn : n = name
      · subst hn
        simp [setInsert, lookup_cons, hbeq, h]
      · simp [setInsert, lookup_cons, hn, hbeq, ih]

theorem names_setInsert :
    (setInsert set name v).map Prod.fst =
      if name ∈ set.map Prod.fst then set.map Prod.fst else set.map Prod.fst ++ [name] := by
  induction set with
  | nil => rfl
  | cons e rest ih =>
    obtain ⟨n, w⟩ := e
    by_cases hn : n = name
    · simp [setInsert, hn]
    · simp only [setInsert, if_neg hn, map_cons, ih, mem_cons, Ne.symm hn, false_or]
      split <;> rfl

theorem nodup_names_setInsert {set : List (String × VariableId)}
    (h : (set.map Prod.fst).Nodup) : ((setInsert set name v).map Prod.fst).Nodup := by
  rw [names_setInsert]
  split
  · exact h
  · rename_i hnot
    rw [← concat_eq_append]
    exact .concat hnot h

/-! New variables. -/

section CreateVariable

variable {s : ScopeId} {name : String}

theorem variableAt_of_size_le (hv : g.vars.size ≤ v) : g.variableAt v = default := by
  simp [variableAt, Array.getD_eq_getD_getElem?, Array.getElem?_eq_none hv]

theorem variableAt_createVariable : (g.createVariable s name).2.variableAt v =
    if v = g.vars.size then ⟨name, s, [], [], [], false⟩ else g.variableAt v :=
  getD_push ..

theorem scopeAt_createVariable (hs : g.LiveScope s) (t : ScopeId) :
    (g.createVariable s name).2.scopeAt t = if t = s then
        { g.scopeAt s with
          vars := (g.scopeAt s).vars ++ [g.vars.size]
          set := setInsert (g.scopeAt s).set name g.vars.size }
      else g.scopeAt t := by
  have hget : (g.createVariable s name).2.scopeAt t = (g.modifyScope s fun sc =>
        { sc with
          vars := sc.vars ++ [g.vars.size]
          set := setInsert sc.set name g.vars.size }).scopeAt t := rfl
  rw [hget, scopeAt_modifyScope]
  simp [hs.1]

theorem declared_createVariable (hs : g.LiveScope s) (t : ScopeId) (n : String) :
    (g.createVariable s name).2.declared? t n =
      if t = s ∧ n = name then some g.vars.size else g.declared? t n := by
  rw [declared?, scopeAt_createVariable hs]
  by_cases hts : t = s
  · subst hts
    simp [lookup_setInsert, declared?]
  · simp [hts, declared?]

theorem liveVariable_createVariable :
    (g.createVariable s name).2.LiveVariable v ↔ g.LiveVariable v ∨ v = g.vars.size := by
  have hsize : (g.createVariable s name).2.vars.size = g.vars.size + 1 := Array.size_push ..
  rw [LiveVariable, LiveVariable, hsize, variableAt_createVariable]
  by_cases hv : v = g.vars.size
  · simp [hv]
  · have hlt : v < g.vars.size + 1 ↔ v < g.vars.size :=
      ⟨fun h => Nat.lt_of_le_of_ne (Nat.le_of_lt_succ h) hv, Nat.lt_succ_of_lt⟩
    simp [hv, hlt]

theorem bindingView_createVariable : (g.createVariable s name).2.bindingView = g.bindingView := by
  unfold bindingView
  congr 1
  funext v
  rw [variableAt_createVariable]
  split
  · rename_i hv
    rw [variableAt_of_size_le (Nat.le_of_eq hv.symm)]
    rfl
  · rfl

/-- A scope gets one more variable, of a name that is new in it. -/
theorem Declares.insert {g' : ScopeGraph} (h : g.Declares s) (hnew : g.declared? s name = none)
    (hout : v ∉ (g.scopeAt s).vars) (hvars : (g'.scopeAt s).vars = (g.scopeAt s).vars ++ [v])
    (hset : (g'.scopeAt s).set = setInsert (g.scopeAt s).set name v)
    (hown : ∀ x, g'.LiveVariable x ∧ (g'.variableAt x).scope = s ↔
      (g.LiveVariable x ∧ (g.variableAt x).scope = s) ∨ x = v)
    (hname : (g'.variableAt v).name = name)
    (hkept : ∀ x ∈ (g.scopeAt s).vars, (g'.variableAt x).name = (g.variableAt x).name) :
    g'.Declares s where
  vars_nodup := by
    rw [hvars, ← concat_eq_append]
    exact .concat hout h.vars_nodup
  mem_vars := by
    intro x
    rw [hvars, mem_append, mem_singleton, h.mem_vars, hown]
  names_nodup := by
    rw [hset]
    exact nodup_names_setInsert h.names_nodup
  declared_iff := by
    intro n x
    rw [declared?, hset, lookup_setInsert, hvars, mem_append, mem_singleton]
    by_cases hn : n = name
    · rw [if_pos hn, Option.some.injEq]
      constructor
      · rintro rfl
        exact ⟨.inr rfl, hname.trans hn.symm⟩
      · rintro ⟨hx | rfl, hxn⟩
        · have hdecl := h.declared_iff.mpr ⟨hx, (hkept x hx).symm.trans (hxn.trans hn)⟩
          cases hnew.symm.trans hdecl
        · rfl
    · rw [if_neg hn, ← declared?, h.declared_iff]
      constructor
      · rintro ⟨hx, hxn⟩
        exact ⟨.inl hx, (hkept x hx).trans hxn⟩
      · rintro ⟨hx | rfl, hxn⟩
        · exact ⟨hx, (hkept x hx).symm.trans hxn⟩
        · exact absurd (hxn.symm.trans hname) hn

theorem DeclarationLinks.createVariable (h : g.DeclarationLinks) (hs : g.LiveScope s)
    (hnew : g.declared? s name = none) : (g.createVariable s name).2.DeclarationLinks := by
  have hlive : (g.createVariable s name).2.LiveScope = g.LiveScope :=
    liveScope_congr (view_createVariable treeView)
  have hold : ∀ {v}, g.LiveVariable v → v ≠ g.vars.size := fun hv => Nat.ne_of_lt hv.1
  have hat : ∀ {v}, g.LiveVariable v → (g.createVariable s name).2.variableAt v =
      g.variableAt v := by
    intro v hv
    rw [variableAt_createVariable, if_neg (hold hv)]
  have hatNew : (g.createVariable s name).2.variableAt g.vars.size =
      ⟨name, s, [], [], [], false⟩ := by
    rw [variableAt_createVariable, if_pos rfl]
  have hown : ∀ t v, (g.createVariable s name).2.LiveVariable v ∧
      ((g.createVariable s name).2.variableAt v).scope = t ↔
        (g.LiveVariable v ∧ (g.variableAt v).scope = t) ∨ (v = g.vars.size ∧ s = t) := by
    intro t v
    rw [liveVariable_createVariable]
    by_cases hv : v = g.vars.size
    · subst hv
      have hdead : ¬ g.LiveVariable g.vars.size := fun hlive => hold hlive rfl
      simp [hdead, hatNew]
    · simp [hv, variableAt_createVariable]
  refine .of_declares ?_ ?_
  · intro v hv
    obtain ⟨hv, hscope⟩ | ⟨-, hscope⟩ := (hown _ v).mp ⟨hv, rfl⟩ <;> rw [hlive, ← hscope]
    · exact h.scope_live hv
    · exact hs
  · intro t
    rw [hlive]
    intro ht
    have hd := h.declares ht
    have hkept : ∀ v ∈ (g.scopeAt t).vars, ((g.createVariable s name).2.variableAt v).name =
        (g.variableAt v).name :=
      fun v hv => by rw [hat (hd.mem_vars.mp hv).1]
    have hscope : (g.createVariable s name).2.scopeAt t = _ := scopeAt_createVariable hs t
    by_cases hts : t = s
    · subst hts
      rw [if_pos rfl] at hscope
      refine hd.insert hnew (fun hmem => hold (hd.mem_vars.mp hmem).1 rfl) (by rw [hscope])
        (by rw [hscope]) ?_ (by rw [hatNew]) hkept
      intro v
      rw [hown]
      simp
    · rw [if_neg hts] at hscope
      refine hd.congr (by rw [hscope]) (by rw [hscope]) ?_ hkept
      intro v
      rw [hown]
      simp [Ne.symm hts]

theorem BindingLinks.createVariable (h : g.BindingLinks) :
    (g.createVariable s name).2.BindingLinks where
  mem_references := by
    intro v r
    rw [bound_congr bindingView_createVariable]
    exact h.mem_references
  bound_live := by
    intro r v
    rw [liveVariable_createVariable]
    exact fun hr hv => .inl (h.bound_live hr hv)

/-- A variable of a new name keeps a graph well-formed. -/
theorem WellFormedBut.createVariable (h : g.WellFormedBut settled open_) (hs : g.LiveScope s)
    (hnew : g.declared? s name = none) :
    (g.createVariable s name).2.WellFormedBut settled open_ where
  tree := h.tree.congr (view_createVariable treeView)
  declarations := h.declarations.createVariable hs hnew
  places := h.places.congr (view_createVariable treeView) (view_createVariable placeView)
  bindings := h.bindings.createVariable
  through := h.through.congr (view_createVariable treeView) (view_createVariable placeView)
    (view_createVariable throughView)
  flow := by
    intro r hr hnot
    have howner : (g.createVariable s name).2.owner? r = g.owner? r := by
      rw [owner?, owner?, resolved_congr bindingView_createVariable]
      cases hres : (g.referenceAt r).resolved with
      | none => rfl
      | some v =>
        have hne : v ≠ g.vars.size := Nat.ne_of_lt (h.bindings.bound_live hr hres).1
        simp [variableAt_createVariable, hne]
    exact (h.flow hr hnot).congr (liveScope_congr (view_createVariable treeView))
      (below_congr_tree (view_createVariable treeView)) (source_congr (view_createVariable placeView) r)
      howner (fun _ => by rw [through_congr (view_createVariable throughView)]) Iff.rfl

end CreateVariable

/-- The variable of a name is a live variable of the scope, whether it is new or not. -/
theorem WellFormedBut.ensureVariable (name : String) (h : g.WellFormedBut settled open_)
    (hs : g.LiveScope s) : (g.ensureVariable s name).2.WellFormedBut settled open_ ∧
      (g.ensureVariable s name).2.LiveVariable (g.ensureVariable s name).1 ∧
      ((g.ensureVariable s name).2.variableAt (g.ensureVariable s name).1).scope = s := by
  unfold ScopeGraph.ensureVariable
  split
  · rename_i v hv
    exact ⟨h, (h.declarations.mem_vars hs).mp ((h.declarations.declared_iff hs).mp hv).1⟩
  · rename_i hnone
    refine ⟨h.createVariable hs hnone, liveVariable_createVariable.mpr (.inr rfl), ?_⟩
    rw [variableAt_createVariable]
    exact congrArg Variable.scope (if_pos rfl)

/-- Further occurrences of a variable are in no view. -/
theorem WellFormedBut.modifyOccurrences {f : Variable → Variable}
    (h : g.WellFormedBut settled open_)
    (hf : ∀ x, (f x).name = x.name ∧ (f x).scope = x.scope ∧ (f x).removed = x.removed ∧
      (f x).references = x.references) : (g.modifyVariable v f).WellFormedBut settled open_ :=
  WellFormedBut.congr (g := g) rfl
    (declView_modifyVariable fun x => ⟨(hf x).1, (hf x).2.1, (hf x).2.2.1⟩) rfl
    (bindingView_modifyVariable fun x => (hf x).2.2.2) rfl h

theorem declare_cases (g : ScopeGraph) (s : ScopeId) (name : String) (identifier : NodeId)
    (kind : DefinitionKind) : g.declare s name identifier kind = g.ensureVariable s name ∨
    g.declare s name identifier kind = ((g.ensureVariable s name).1,
      (g.ensureVariable s name).2.modifyVariable (g.ensureVariable s name).1 fun x =>
        { x with
          identifiers := x.identifiers ++ [identifier]
          defs := x.defs ++ [⟨kind, identifier⟩] }) := by
  unfold declare
  dsimp only
  split
  · exact .inl rfl
  · exact .inr rfl

theorem WellFormedBut.declare (name : String) (identifier : NodeId)
    (kind : DefinitionKind) (h : g.WellFormedBut settled open_) (hs : g.LiveScope s) :
    (g.declare s name identifier kind).2.WellFormedBut settled open_ ∧
      (g.declare s name identifier kind).2.LiveVariable (g.declare s name identifier kind).1 ∧
      ((g.declare s name identifier kind).2.variableAt (g.declare s name identifier kind).1).scope = s := by
  obtain ⟨hwf, hlive, hscope⟩ := h.ensureVariable name hs
  rcases declare_cases g s name identifier kind with heq | heq
  · rw [heq]
    exact ⟨hwf, hlive, hscope⟩
  · rw [heq]
    have hdecl : ((g.ensureVariable s name).2.modifyVariable (g.ensureVariable s name).1 fun x =>
        { x with
          identifiers := x.identifiers ++ [identifier]
          defs := x.defs ++ [⟨kind, identifier⟩] }).declView =
        (g.ensureVariable s name).2.declView :=
      declView_modifyVariable fun _ => ⟨rfl, rfl, rfl⟩
    refine ⟨hwf.modifyOccurrences fun _ => ⟨rfl, rfl, rfl, rfl⟩, ?_, ?_⟩
    · rw [liveVariable_congr hdecl]
      exact hlive
    · rw [scope_congr hdecl]
      exact hscope

/-! Binding what was free so far. -/

/-- A free reference that passes through a scope may be bound to a variable of that scope; then it
passes through no scope from there on. -/
theorem WellFormed.bindThrough {r : ReferenceId} (h : g.WellFormed settled) (hs : g.LiveScope s)
    (hv : g.LiveVariable v) (hscope : (g.variableAt v).scope = s) (hr : r ∈ (g.scopeAt s).through)
    (hfree : (g.referenceAt r).resolved = none) :
    ((g.link r v).dropThrough (g.ancestors s) r).WellFormed settled := by
  have hlive := h.through.live hs hr
  have hflow := h.flow hlive id
  obtain ⟨hset, hbelow, -⟩ := (hflow.mem_through hs).mp hr
  have howner0 : g.owner? r = none := by
    rw [owner?, hfree]
    rfl
  have hopen : g.WellFormedBut settled fun q => False ∨ q = r :=
    WellFormedBut.weaken h fun _ _ => ⟨id, Iff.rfl⟩
  have hlinked := hopen.link hlive hfree hv (.inr rfl)
  refine (hlinked.dropThrough (g.ancestors s) (.inr rfl)).close fun _ => ?_
  have howner : ((g.link r v).dropThrough (g.ancestors s) r).owner? r = some s := by
    rw [owner?, resolved_congr (view_dropThrough bindingView), resolved_link hlive.1,
      if_pos rfl, Option.map_some, scope_congr (view_bindThrough declView), hscope]
  refine .of_bound (view_bindThrough treeView) (source_congr (view_bindThrough placeView) r)
    howner hset hbelow fun {t} ht => ?_
  rw [mem_dropThrough, through_congr (view_link throughView), hflow.mem_through ht,
    PassesThrough, howner0, h.tree.mem_ancestors hs]
  constructor
  · rintro ⟨⟨-, hst, -⟩, hnot⟩
    have hts : ¬ g.Below s t := fun hst => hnot ⟨rfl, hst⟩
    refine ⟨hst, (below_total hst hbelow).resolve_right hts, ?_⟩
    rintro rfl
    exact hts .refl
  · rintro ⟨hst, hts, hne⟩
    refine ⟨⟨hset, hst, by simp⟩, ?_⟩
    rintro ⟨-, hback⟩
    exact hne (h.tree.below_antisymm ht hts hback)

/-- Binding the free references of a name to a variable of the scope that they pass through. -/
theorem WellFormed.resolveThrough (h : g.WellFormed settled) (hs : g.LiveScope s)
    (hv : g.LiveVariable v)
    (hscope : (g.variableAt v).scope = s) : (g.resolveThrough s name v).WellFormed settled := by
  unfold ScopeGraph.resolveThrough
  have hmem : ∀ r ∈ (g.scopeAt s).through.filter fun r =>
      (g.referenceAt r).name == name && (g.referenceAt r).resolved.isNone,
      r ∈ (g.scopeAt s).through ∧ (g.referenceAt r).resolved = none := by
    intro r hr
    have hr := mem_filter.mp hr
    simp only [Bool.and_eq_true, Option.isNone_iff_eq_none] at hr
    exact ⟨hr.1, hr.2.2⟩
  have hnodup := (h.through.nodup hs).filter fun r =>
    (g.referenceAt r).name == name && (g.referenceAt r).resolved.isNone
  generalize (g.scopeAt s).through.filter _ = pending at hmem hnodup
  -- The references that are still to be bound stay free and stay in the list of the scope.
  induction pending generalizing g with
  | nil => exact h
  | cons r rest ih =>
    obtain ⟨hnotin, hrest⟩ := nodup_cons.mp hnodup
    obtain ⟨hthrough, hfree⟩ := hmem r (by simp)
    have hlive := h.through.live hs hthrough
    have htree : ((g.link r v).dropThrough (g.ancestors s) r).treeView = g.treeView :=
      view_bindThrough treeView
    have hdecl : ((g.link r v).dropThrough (g.ancestors s) r).declView = g.declView :=
      view_bindThrough declView
    refine ih (h.bindThrough hs hv hscope hthrough hfree) ?_ ?_ ?_ ?_ hrest
    · rw [liveScope_congr htree]
      exact hs
    · rw [liveVariable_congr hdecl]
      exact hv
    · rw [scope_congr hdecl]
      exact hscope
    · intro q hq
      have hne : q ≠ r := fun he => hnotin (he ▸ hq)
      obtain ⟨hqt, hqf⟩ := hmem q (mem_cons_of_mem _ hq)
      rw [mem_dropThrough, resolved_congr (view_dropThrough bindingView), resolved_link hlive.1, if_neg hne]
      exact ⟨⟨hqt, fun he => hne he.1⟩, hqf⟩

theorem WellFormed.declareImplicit (h : g.WellFormed settled)
    (hs : g.LiveScope s) : (g.declareImplicit s name).2.WellFormed settled := by
  obtain ⟨hwf, hlive, hscope⟩ := WellFormedBut.ensureVariable name h hs
  have hs' : (g.ensureVariable s name).2.LiveScope s := hs.of_tree (view_ensureVariable treeView)
  exact WellFormed.resolveThrough hwf hs' hlive hscope

/-- The target of a reactive assignment is declared when its scope does not declare the name. -/
theorem declareReactive_cases (g : ScopeGraph) (a : Arena) (s : ScopeId) (identifier : NodeId) :
    (g.declareReactive a s identifier).2 = g ∨
    ∃ name, a.identifierName? identifier = some name ∧ g.declared? s name = none ∧
      (g.declareReactive a s identifier).2 = (g.declare s name identifier .variable).2.resolveThrough s name
          (g.declare s name identifier .variable).1 := by
  unfold declareReactive
  split
  · exact .inl rfl
  · rename_i name hname
    split
    · exact .inl rfl
    · rename_i hnew
      exact .inr ⟨name, hname, by simpa using hnew, by dsimp only⟩

theorem view_declareReactive {β : Type} (view : ScopeGraph → β) [IgnoresDecls view]
    [IgnoresFlow view]
    [IgnoresBindings view] {a : Arena} {identifier : NodeId} :
    view (g.declareReactive a s identifier).2 = view g := by
  rcases declareReactive_cases g a s identifier with heq | ⟨name, -, -, heq⟩
  · rw [heq]
  · rw [heq, view_resolveThrough view, view_declare view]

theorem WellFormed.declareReactive {a : Arena} {identifier : NodeId} (h : g.WellFormed settled)
    (hs : g.LiveScope s) : (g.declareReactive a s identifier).2.WellFormed settled := by
  rcases declareReactive_cases g a s identifier with heq | ⟨name, -, -, heq⟩
  · rw [heq]
    exact h
  · obtain ⟨hwf, hlive, hscope⟩ := WellFormedBut.declare name identifier .variable h hs
    have hs' : (g.declare s name identifier .variable).2.LiveScope s :=
      hs.of_tree (view_declare treeView)
    rw [heq]
    exact WellFormed.resolveThrough hwf hs' hlive hscope

end Loom.ScopeGraph
