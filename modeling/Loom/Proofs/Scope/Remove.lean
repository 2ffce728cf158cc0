import Loom.Proofs.Scope.Adopt

/-!
Removing variables, references and scopes.

The references of a removed variable are free from then on and pass through all scopes above theirs.
A scope goes with all scopes below it, innermost first, so that the one that is marked has nothing
in it any more.
-/

open List

namespace Loom.ScopeGraph

variable {β : Type} {f : Scope → Scope} {t s c : ScopeId} {fuel : Nat} {a : Arena}
  {r q : ReferenceId} {v w : VariableId} {g : ScopeGraph} {settled : ReferenceId → Prop}

/-! References made free again. -/

section Demote

variable {scopes : List ScopeId}

theorem demote_eq (hr : g.LiveReference r) (scopes : List ScopeId) :
    g.demote scopes r = scopes.foldl (·.addThrough · r)
      (g.modifyReference r ({ · with resolved := none })) := by
  rw [demote, if_neg (by simp [hr.2])]

theorem bound_demote (v : VariableId) :
    ((g.demote scopes r).variableAt v).references = (g.variableAt v).references := by
  unfold demote
  split
  · rfl
  · exact bound_congr (view_addThroughs bindingView) v

/-- The graph with several references made free. -/
def demoteAll (g : ScopeGraph) (scopes : List ScopeId) (rs : List ReferenceId) : ScopeGraph :=
  rs.foldl (·.demote scopes ·) g

variable {rs : List ReferenceId}

theorem view_demoteAll (view : ScopeGraph → β) [IgnoresFlow view] [IgnoresBindings view] :
    view (g.demoteAll scopes rs) = view g :=
  view_foldl view (fun _ _ => view_demote view) rs g

theorem bound_demoteAll (v : VariableId) :
    ((g.demoteAll scopes rs).variableAt v).references = (g.variableAt v).references :=
  view_foldl (fun g => (g.variableAt v).references) (fun _ _ => bound_demote v) rs g

theorem resolved_demoteAll (hrs : ∀ r ∈ rs, g.LiveReference r) (q : ReferenceId) :
    ((g.demoteAll scopes rs).referenceAt q).resolved = if q ∈ rs then none
      else (g.referenceAt q).resolved := by
  induction rs generalizing g with
  | nil => simp [demoteAll]
  | cons r rs ih =>
    have hr := hrs r (by simp)
    have hrs' : ∀ q ∈ rs, (g.demote scopes r).LiveReference q := fun q hq =>
      (hrs q (mem_cons_of_mem _ hq)).of_place (view_demote placeView)
    have hstep : ((g.demote scopes r).referenceAt q).resolved =
        if q = r then none else (g.referenceAt q).resolved := by
      rw [demote_eq hr, resolved_congr (view_addThroughs bindingView), referenceAt_modifyReference]
      by_cases hq : q = r <;> simp [hq, hr.1]
    rw [demoteAll, foldl_cons, ← demoteAll, ih hrs', hstep]
    by_cases hq : q = r <;> by_cases hmem : q ∈ rs <;> simp [hq, hmem]

theorem mem_through_demoteAll (hrs : ∀ r ∈ rs, g.LiveReference r) :
    q ∈ ((g.demoteAll scopes rs).scopeAt s).through ↔
    q ∈ (g.scopeAt s).through ∨ (q ∈ rs ∧ s ∈ scopes ∧ s < g.scopes.size) := by
  induction rs generalizing g with
  | nil => simp [demoteAll]
  | cons r rs ih =>
    have hrs' : ∀ q ∈ rs, (g.demote scopes r).LiveReference q := fun q hq =>
      (hrs q (mem_cons_of_mem _ hq)).of_place (view_demote placeView)
    have hstep : q ∈ ((g.demote scopes r).scopeAt s).through ↔
        q ∈ (g.scopeAt s).through ∨ (q = r ∧ s ∈ scopes ∧ s < g.scopes.size) := by
      rw [demote_eq (hrs r (by simp)), mem_addThroughs]
      exact Iff.rfl
    rw [demoteAll, foldl_cons, ← demoteAll, ih hrs', size_congr (view_demote treeView), mem_cons]
    tauto

theorem nodup_through_demoteAll (h : (g.scopeAt s).through.Nodup) :
    ((g.demoteAll scopes rs).scopeAt s).through.Nodup := by
  induction rs generalizing g with
  | nil => exact h
  | cons r rs ih =>
    refine ih (g := g.demote scopes r) ?_
    unfold demote
    split
    · exact h
    · exact nodup_through_addThroughs h

end Demote

/-! Variables that go. -/

/-- A table of distinct names without one of its entries. -/
theorem lookup_filter_entry {set : List (String × VariableId)} {n : String} {v : VariableId}
    (h : (set.map Prod.fst).Nodup) (hv : set.lookup n = some v) (m : String) :
    (set.filter fun e => !(e.1 == n && e.2 == v)).lookup m = if m = n then none
      else set.lookup m := by
  induction set with
  | nil => simp
  | cons e rest ih =>
    obtain ⟨k, w⟩ := e
    rw [map_cons, nodup_cons] at h
    by_cases hk : n = k
    · subst hk
      rw [lookup_cons, beq_self_eq_true] at hv
      cases hv
      -- The entry goes, and no later one has its name.
      have hother : ∀ e ∈ rest, e.1 ≠ n := fun e he heq => h.1 (mem_map.mpr ⟨e, he, heq⟩)
      have hkeep : rest.filter (fun e => !(e.1 == n && e.2 == v)) = rest := by
        rw [filter_eq_self]
        intro e he
        simp [hother e he]
      have hnone : rest.lookup n = none := by
        rw [lookup_eq_none_iff]
        intro e he
        simp [Ne.symm (hother e he)]
      rw [filter_cons_of_neg (by simp), hkeep]
      by_cases hm : m = n
      · rw [if_pos hm, hm, hnone]
      · rw [if_neg hm, lookup_cons, beq_eq_false_iff_ne.mpr hm]
    · rw [lookup_cons, beq_eq_false_iff_ne.mpr hk] at hv
      have ih := ih h.2 hv
      rw [filter_cons_of_pos (by simp [Ne.symm hk])]
      by_cases hm : m = k
      · rw [lookup_cons, hm, if_neg (Ne.symm hk), lookup_cons, beq_self_eq_true]
      · rw [lookup_cons, ih, lookup_cons, beq_eq_false_iff_ne.mpr hm]

/-- The variable as removed and without references, and out of the lists of its scope. -/
def retireVariable (g : ScopeGraph) (v : VariableId) : ScopeGraph :=
  (g.modifyVariable v ({ · with removed := true, references := [] })).modifyScope
    (g.variableAt v).scope fun s =>
      { s with
        vars := s.vars.filter (· != v)
        set := s.set.filter fun e => !(e.1 == (g.variableAt v).name && e.2 == v) }

theorem view_retireVariable (view : ScopeGraph → β) [IgnoresDecls view] :
    view (g.retireVariable v) = view g :=
  IgnoresDecls.declared.trans IgnoresDecls.vars

theorem deleteVariable_eq :
    g.deleteVariable v = (g.retireVariable v).demoteAll (g.ancestors (g.variableAt v).scope)
      (g.variableAt v).references := by
  have hfold : ∀ (rs : List ReferenceId) (s : ScopeId) (h : ScopeGraph),
      rs.foldl (fun h r => h.demote (h.ancestors s) r) h = h.demoteAll (h.ancestors s) rs := by
    intro rs s
    induction rs with
    | nil => exact fun _ => rfl
    | cons r rs ih =>
      intro h
      rw [foldl_cons, ih, ancestors_congr_tree (view_demote treeView)]
      rfl
  rw [← ancestors_congr_tree (view_retireVariable treeView)]
  exact hfold ..

theorem variableAt_retireVariable : (g.retireVariable v).variableAt w =
    if w = v ∧ v < g.vars.size then { g.variableAt v with removed := true, references := [] }
      else g.variableAt w :=
  variableAt_modifyVariable ..

theorem scopeAt_retireVariable : (g.retireVariable v).scopeAt s =
    if s = (g.variableAt v).scope ∧ (g.variableAt v).scope < g.scopes.size then
        { g.scopeAt (g.variableAt v).scope with
          vars := (g.scopeAt (g.variableAt v).scope).vars.filter (· != v)
          set := (g.scopeAt (g.variableAt v).scope).set.filter fun e =>
            !(e.1 == (g.variableAt v).name && e.2 == v) }
      else g.scopeAt s :=
  scopeAt_modifyScope g ..

theorem liveVariable_retireVariable :
    (g.retireVariable v).LiveVariable w ↔ g.LiveVariable w ∧ w ≠ v := by
  have hsize : (g.retireVariable v).vars.size = g.vars.size := size_modifyVariable ..
  rw [LiveVariable, LiveVariable, hsize, variableAt_retireVariable]
  by_cases hw : w = v
  · subst hw
    by_cases hlt : w < g.vars.size <;> simp [hlt]
  · simp [hw]

theorem name_retireVariable : ((g.retireVariable v).variableAt w).name = (g.variableAt w).name :=
  field_modifyVariable (·.name) (f := ({ · with removed := true, references := [] }))
    (fun _ => rfl) g v w

theorem scope_retireVariable : ((g.retireVariable v).variableAt w).scope = (g.variableAt w).scope :=
  field_modifyVariable (·.scope) (f := ({ · with removed := true, references := [] }))
    (fun _ => rfl) g v w

theorem DeclarationLinks.retireVariable (h : g.DeclarationLinks) (hv : g.LiveVariable v) :
    (g.retireVariable v).DeclarationLinks := by
  have hlive : (g.retireVariable v).LiveScope = g.LiveScope :=
    liveScope_congr (view_retireVariable treeView)
  refine .of_declares ?_ ?_
  · intro w
    rw [liveVariable_retireVariable, scope_retireVariable, hlive]
    intro hw
    exact h.scope_live hw.1
  · intro s
    rw [hlive]
    intro hs
    have hd := h.declares hs
    by_cases hscope : s = (g.variableAt v).scope
    · subst hscope
      have hown := h.declared_self hv
      refine ⟨?_, fun {w} => ?_, ?_, fun {n w} => ?_⟩ <;>
        simp only [declared?, scopeAt_retireVariable, if_pos, hs.1, and_self]
      · exact hd.vars_nodup.filter _
      · rw [liveVariable_retireVariable, scope_retireVariable, mem_filter, hd.mem_vars, bne_iff_ne]
        tauto
      · exact hd.names_nodup.sublist (filter_sublist.map _)
      · rw [lookup_filter_entry hd.names_nodup hown, name_retireVariable, mem_filter, bne_iff_ne]
        have hmem : g.declared? (g.variableAt v).scope n = some w ↔ _ := hd.declared_iff
        by_cases hn : n = (g.variableAt v).name
        · subst hn
          rw [hown, Option.some.injEq] at hmem
          simp only [if_true, reduceCtorEq, false_iff]
          exact fun hw => hw.1.2 (hmem.mpr ⟨hw.1.1, hw.2⟩).symm
        · have hne : (g.variableAt w).name = n → w ≠ v := by
            rintro rfl rfl
            exact hn rfl
          rw [if_neg hn]
          tauto
    · have hat : (g.retireVariable v).scopeAt s = g.scopeAt s := by
        rw [scopeAt_retireVariable, if_neg fun he => hscope he.1]
      refine hd.congr (by rw [hat]) (by rw [hat]) ?_ fun w _ => name_retireVariable
      intro w
      have hne : (g.variableAt w).scope = s → w ≠ v := by
        rintro rfl rfl
        exact hscope rfl
      rw [liveVariable_retireVariable, scope_retireVariable]
      tauto

theorem liveVariable_deleteVariable :
    (g.deleteVariable v).LiveVariable w ↔ g.LiveVariable w ∧ w ≠ v := by
  rw [deleteVariable_eq, liveVariable_congr (view_demoteAll declView), liveVariable_retireVariable]

theorem scope_deleteVariable (w : VariableId) :
    ((g.deleteVariable v).variableAt w).scope = (g.variableAt w).scope := by
  rw [deleteVariable_eq, scope_congr (view_demoteAll declView), scope_retireVariable]

/-- The references of a variable are live in the graph without it. -/
theorem liveReference_of_bound (h : g.BindingLinks)
    (hr : r ∈ (g.variableAt v).references) : (g.retireVariable v).LiveReference r := by
  exact (h.mem_references.mp hr).1

theorem resolved_deleteVariable (h : g.BindingLinks) (q : ReferenceId) :
    ((g.deleteVariable v).referenceAt q).resolved =
    if q ∈ (g.variableAt v).references then none else (g.referenceAt q).resolved := by
  rw [deleteVariable_eq, resolved_demoteAll fun r hr => liveReference_of_bound h hr]
  rfl

theorem mem_deleteVariable (h : g.BindingLinks) :
    q ∈ ((g.deleteVariable v).scopeAt s).through ↔
    q ∈ (g.scopeAt s).through ∨ (q ∈ (g.variableAt v).references ∧
        s ∈ g.ancestors (g.variableAt v).scope ∧ s < g.scopes.size) := by
  rw [deleteVariable_eq, mem_through_demoteAll fun r hr => liveReference_of_bound h hr,
    through_congr (view_retireVariable throughView), size_congr (view_retireVariable treeView)]

theorem BindingLinks.deleteVariable (h : g.BindingLinks) (hv : g.LiveVariable v) :
    (g.deleteVariable v).BindingLinks := by
  have hbound : ∀ {q}, q ∈ (g.variableAt v).references ↔
      g.LiveReference q ∧ (g.referenceAt q).resolved = some v := h.mem_references
  refine ⟨?_, ?_⟩
  · intro w q
    have hlist : ((g.deleteVariable v).variableAt w).references =
        if w = v then [] else (g.variableAt w).references := by
      rw [deleteVariable_eq, bound_demoteAll, variableAt_retireVariable]
      by_cases hw : w = v <;> simp [hw, hv.1]
    rw [hlist, liveReference_congr (view_deleteVariable placeView), resolved_deleteVariable h]
    by_cases hw : w = v
    · subst hw
      by_cases hq : q ∈ (g.variableAt w).references
      · simp [hq]
      · simp only [if_pos, not_mem_nil, if_neg hq, false_iff]
        exact fun hb => hq (hbound.mpr hb)
    · rw [if_neg hw, h.mem_references]
      by_cases hq : q ∈ (g.variableAt v).references
      · have hres := (hbound.mp hq).2
        simp [hq, hres, Ne.symm hw]
      · simp [hq]
  · intro q w
    rw [liveReference_congr (view_deleteVariable placeView), resolved_deleteVariable h,
      liveVariable_deleteVariable]
    intro hq hw
    split at hw
    · cases hw
    · rename_i hnot
      refine ⟨h.bound_live hq hw, ?_⟩
      rintro rfl
      exact hnot (hbound.mpr ⟨hq, hw⟩)

/-- A reference whose variable goes passes through all scopes from its own upward. -/
theorem Flow.deleteVariable (h : g.WellFormed settled) (hv : g.LiveVariable v)
    (hq : q ∈ (g.variableAt v).references) : (g.deleteVariable v).Flow (settled q) q := by
  obtain ⟨hlive, hres⟩ := h.bindings.mem_references.mp hq
  have hflow := h.flow hlive id
  have howner : g.owner? q = some (g.variableAt v).scope := by
    rw [owner?, hres, Option.map_some]
  have howner' : (g.deleteVariable v).owner? q = none := by
    rw [owner?, resolved_deleteVariable h.bindings, if_pos hq]
    rfl
  have hset := hflow.settled_of_bound howner
  have hbelow := hflow.below_owner howner
  refine .of_free (view_deleteVariable treeView)
    (source_congr (view_deleteVariable placeView) q) howner' fun {s} hs => ?_
  rw [mem_deleteVariable h.bindings, hflow.mem_through hs, PassesThrough, howner,
    h.tree.mem_ancestors (h.declarations.scope_live hv)]
  constructor
  · rintro (⟨-, hsource, -⟩ | ⟨-, habove, -⟩)
    · exact ⟨hset, hsource⟩
    · exact ⟨hset, hbelow.trans habove⟩
  · rintro ⟨-, hsource⟩
    -- Below the old variable's scope the reference is listed already; the rest is new.
    rcases below_total hsource hbelow with hso | hos
    · by_cases heq : s = (g.variableAt v).scope
      · exact .inr ⟨hq, heq ▸ .refl, hs.1⟩
      · refine .inl ⟨hset, hsource, ?_⟩
        rintro o ⟨⟩
        exact ⟨hso, heq⟩
    · exact .inr ⟨hq, hos, hs.1⟩

theorem WellFormed.deleteVariable (h : g.WellFormed settled) (hv : g.LiveVariable v) :
    (g.deleteVariable v).WellFormed settled where
  tree := h.tree.congr (view_deleteVariable treeView)
  declarations := by
    rw [deleteVariable_eq]
    exact (h.declarations.retireVariable hv).congr (view_demoteAll treeView)
      (view_demoteAll declView)
  places := h.places.congr (view_deleteVariable treeView) (view_deleteVariable placeView)
  bindings := h.bindings.deleteVariable hv
  through :=
    { live := by
        intro s q
        rw [liveScope_congr (view_deleteVariable treeView),
          liveReference_congr (view_deleteVariable placeView), mem_deleteVariable h.bindings]
        rintro hs (hq | ⟨hq, -⟩)
        · exact h.through.live hs hq
        · exact (h.bindings.mem_references.mp hq).1
      nodup := by
        intro s
        rw [liveScope_congr (view_deleteVariable treeView), deleteVariable_eq]
        intro hs
        refine nodup_through_demoteAll ?_
        rw [through_congr (view_retireVariable throughView)]
        exact h.through.nodup hs }
  flow := by
    intro q
    rw [liveReference_congr (view_deleteVariable placeView)]
    intro hq hnot
    by_cases hmem : q ∈ (g.variableAt v).references
    · exact .deleteVariable h hv hmem
    · have hres : ((g.deleteVariable v).referenceAt q).resolved = (g.referenceAt q).resolved := by
        rw [resolved_deleteVariable h.bindings, if_neg hmem]
      have howner : (g.deleteVariable v).owner? q = g.owner? q := by
        simp only [owner?, hres, scope_deleteVariable]
      exact (h.flow hq hnot).congr (liveScope_congr (view_deleteVariable treeView))
        (below_congr_tree (view_deleteVariable treeView)) (source_congr (view_deleteVariable placeView) q)
        howner (fun _ => by rw [mem_deleteVariable h.bindings]; simp [hmem]) Iff.rfl

/-! Occurrences of a variable. -/

section Occurrences

variable {identifier : NodeId}

theorem WellFormed.removeOccurrence (h : g.WellFormed settled) (hv : g.LiveVariable v) :
    (g.removeOccurrence v identifier).WellFormed settled := by
  unfold ScopeGraph.removeOccurrence
  dsimp only
  let own := (g.variableAt v).references.filter fun r => (g.referenceAt r).identifier == identifier
  have hunlinked := (h.unlinkReferences own).1
  let trimmed := (own.foldl ScopeGraph.unlinkReference g).modifyVariable v fun x =>
    { x with
      identifiers := x.identifiers.filter (· != identifier)
      defs := x.defs.filter (·.name != identifier) }
  have hdecl : trimmed.declView = g.declView :=
    (declView_modifyVariable fun _ => by simp).trans (view_unlinkReferences declView)
  have hwf : trimmed.WellFormed settled :=
    WellFormedBut.modifyOccurrences hunlinked fun _ => by simp
  split
  · refine hwf.deleteVariable ?_
    rw [liveVariable_congr hdecl]
    exact hv
  · exact hwf

theorem WellFormed.removeBinding (h : g.WellFormed settled)
    (hs : g.LiveScope s) : (g.removeBinding a s identifier).WellFormed settled := by
  unfold ScopeGraph.removeBinding
  split
  · rename_i v hv
    obtain ⟨name, -, hdecl⟩ := Option.bind_eq_some_iff.mp hv
    exact h.removeOccurrence (h.declarations.declared hs hdecl).1
  · exact h

theorem WellFormed.removeVariable {pattern : NodeId} (h : g.WellFormed settled)
    (hs : g.LiveScope s) : (g.removeVariable a pattern s).WellFormed settled := by
  unfold ScopeGraph.removeVariable
  generalize patternIdentifiers a pattern = identifiers
  induction identifiers generalizing g with
  | nil => exact h
  | cons i identifiers ih =>
    refine ih (h.removeBinding hs) ?_
    rw [liveScope_congr (view_removeBinding treeView)]
    exact hs

/-- What a search for the reference at an identifier finds is live, unless it is free. -/
theorem liveReference_of_found (h : g.PlaceLinks) (hs : g.LiveScope s)
    (hr : (((g.scopeAt s).references.find? fun r => (g.referenceAt r).identifier == identifier).or
      (g.referenceForIdentifier? identifier)) = some r)
    (hv : (g.referenceAt r).resolved = some v) : g.LiveReference r := by
  rcases Option.or_eq_some_iff.mp hr with hin | ⟨-, hindex⟩
  · exact ((h.mem_references hs).mp (mem_of_find?_eq_some hin)).1
  · have hmem := (mem_filter.mp (mem_of_mem_head? hindex)).2
    refine ⟨?_, by simpa using hmem⟩
    -- A number that stands for no reference is free.
    by_contra hsize
    rw [referenceAt_of_size_le (Nat.le_of_not_lt hsize)] at hv
    cases hv

theorem removeReference_cases (g : ScopeGraph) (identifier : NodeId) (s : ScopeId) :
    ((((g.scopeAt s).references.find? fun r => (g.referenceAt r).identifier == identifier).or
        (g.referenceForIdentifier? identifier)) = none ∧ (g.removeReference identifier s).2 = g) ∨
    ∃ r, (((g.scopeAt s).references.find? fun r => (g.referenceAt r).identifier == identifier).or
        (g.referenceForIdentifier? identifier)) = some r ∧
      ((g.removeReference identifier s).2 = g.unlinkReference r ∨
      ∃ v, (g.referenceAt r).resolved = some v ∧
        (g.removeReference identifier s).2 = (g.unlinkReference r).removeOccurrence v identifier) := by
  unfold removeReference
  dsimp only
  split
  · rename_i hnone
    exact .inl ⟨hnone, rfl⟩
  · rename_i r hr
    refine .inr ⟨r, hr, ?_⟩
    split
    · rename_i v hv
      split
      · right
        exact ⟨v, hv, by dsimp only⟩
      · exact .inl rfl
    · exact .inl rfl

theorem view_removeReference (view : ScopeGraph → β) [IgnoresContents view] :
    view (g.removeReference identifier s).2 = view g := by
  rcases removeReference_cases g identifier s with ⟨-, heq⟩ | ⟨r, -, heq | ⟨v, -, heq⟩⟩
  · rw [heq]
  · rw [heq, view_unlinkReference view]
  · rw [heq, view_removeOccurrence view, view_unlinkReference view]

theorem WellFormed.removeReference (h : g.WellFormed settled) (hs : g.LiveScope s) :
    (g.removeReference identifier s).2.WellFormed settled := by
  rcases removeReference_cases g identifier s with ⟨-, heq⟩ | ⟨r, hr, heq | ⟨v, hv, heq⟩⟩
  · rw [heq]
    exact h
  · rw [heq]
    exact h.unlinkReference r
  · rw [heq]
    refine (h.unlinkReference r).removeOccurrence ?_
    rw [liveVariable_congr (view_unlinkReference declView)]
    exact h.bindings.bound_live (liveReference_of_found h.places hs hr hv) hv

end Occurrences

/-! Scopes that go. -/

/-- A graph with one live scope less, and all else of it as it was but for the tree. -/
structure Retired (g g' : ScopeGraph) (s : ScopeId) : Prop extends SameEntries g g' where
  live : ∀ t, g'.LiveScope t ↔ g.LiveScope t ∧ t ≠ s
  kept : ∀ t, t ≠ s → (g'.scopeAt t).vars = (g.scopeAt t).vars ∧
    (g'.scopeAt t).set = (g.scopeAt t).set ∧ (g'.scopeAt t).references = (g.scopeAt t).references ∧
    (g'.scopeAt t).through = (g.scopeAt t).through

namespace Retired

variable {g' : ScopeGraph}

section

variable (hr : Retired g g' s)

include hr

theorem declarations (h : g.Adopting s []) : g'.DeclarationLinks := by
  refine .of_declares ?_ ?_
  · intro v
    rw [hr.liveVariable_iff, hr.variableAt_eq, hr.live]
    intro hv
    exact ⟨h.scope_live hv, fun heq => not_mem_nil (h.mem_pending.mpr ⟨hv, heq⟩)⟩
  · intro t
    rw [hr.live]
    rintro ⟨ht, hne⟩
    exact hr.declares (h.declares ht hne) (hr.kept t hne).1 (hr.kept t hne).2.1

theorem places (h : g.PlaceLinks) (hs : g.LiveScope s) (hempty : (g.scopeAt s).references = []) :
    g'.PlaceLinks := by
  refine ⟨?_, ?_⟩
  · intro r
    rw [hr.liveReference_iff, hr.referenceAt_eq, hr.live]
    intro hlive
    refine ⟨h.source_live hlive, ?_⟩
    intro heq
    have hmem := (h.mem_references hs).mpr ⟨hlive, heq⟩
    rw [hempty] at hmem
    cases hmem
  · intro t r
    rw [hr.live, hr.liveReference_iff, hr.referenceAt_eq]
    rintro ⟨ht, hne⟩
    rw [(hr.kept t hne).2.2.1]
    exact h.mem_references ht

theorem through (h : g.ThroughLists) : g'.ThroughLists := by
  refine ⟨?_, ?_⟩
  · intro t r
    rw [hr.live, hr.liveReference_iff]
    rintro ⟨ht, hne⟩
    rw [(hr.kept t hne).2.2.2]
    exact h.live ht
  · intro t
    rw [hr.live]
    rintro ⟨ht, hne⟩
    rw [(hr.kept t hne).2.2.2]
    exact h.nodup ht

theorem flow (hb : g'.Below = g.Below) {p : Prop} (h : g.Flow p r) : g'.Flow p r := by
  refine ⟨?_, ?_, ?_⟩
  · intro o
    rw [hr.owner_eq, hr.referenceAt_eq, hb]
    exact h.below_owner
  · intro t
    rw [hr.live]
    rintro ⟨ht, hne⟩
    rw [(hr.kept t hne).2.2.2, PassesThrough, hr.owner_eq, hr.referenceAt_eq, hb]
    exact h.mem_through ht
  · intro o
    rw [hr.owner_eq]
    exact h.settled_of_bound

end

theorem scopeAt_retireScope (ht : t ≠ s) :
    ((g.modifyScope s f).retireScope s).scopeAt t = g.scopeAt t := by
  have hget : ((g.modifyScope s f).retireScope s).scopeAt t =
      ((g.modifyScope s f).modifyScope s ({ · with removed := true })).scopeAt t := rfl
  rw [hget, scopeAt_modifyScope, if_neg fun he => ht he.1, scopeAt_modifyScope,
    if_neg fun he => ht he.1]

/-- What happens to a scope before it is retired does not matter. -/
theorem of_retireScope (hs : s < g.scopes.size) :
    Retired g ((g.modifyScope s f).retireScope s) s := by
  have hown : (((g.modifyScope s f).retireScope s).scopeAt s).removed = true := by
    have hget : ((g.modifyScope s f).retireScope s).scopeAt s =
        ((g.modifyScope s f).modifyScope s ({ · with removed := true })).scopeAt s := rfl
    rw [hget, scopeAt_modifyScope, if_pos ⟨rfl, by simpa using hs⟩]
  have hsize : ((g.modifyScope s f).retireScope s).scopes.size = g.scopes.size := by
    simp [retireScope, modifyScope]
  refine ⟨⟨rfl, rfl⟩, ?_, ?_⟩
  · intro t
    by_cases ht : t = s
    · subst ht
      rw [LiveScope, hown]
      simp
    · rw [LiveScope, LiveScope, hsize, scopeAt_retireScope ht]
      simp [ht]
  · intro t ht
    rw [scopeAt_retireScope ht]
    exact ⟨rfl, rfl, rfl, rfl⟩

end Retired

/-- The scope above no longer lists the scope, and the scope is marked. -/
theorem scopeAt_detachScope (h : g.TreeLinks) (hs : g.LiveScope s) (t : ScopeId) :
    (g.detachScope s).scopeAt t = { g.scopeAt t with
        children :=
          if (g.scopeAt s).upper = some t then (g.scopeAt t).children.filter (· != s)
          else (g.scopeAt t).children
        removed := (g.scopeAt t).removed || t == s } := by
  cases hup : (g.scopeAt s).upper with
  | none =>
    have hget : (g.detachScope s).scopeAt t = (g.modifyScope s ({ · with removed := true })).scopeAt
      t := by
      simp only [detachScope, hup]
      rfl
    rw [hget, scopeAt_modifyScope]
    by_cases hts : t = s
    · subst hts
      simp [hs.1]
    · simp [hts, beq_eq_false_iff_ne.mpr hts]
  | some u =>
    have hu := (h.upper_live hs hup).1
    have hget : (g.detachScope s).scopeAt t =
        ((g.modifyScope u fun sc => { sc with children := sc.children.filter (· != s) }).modifyScope
          s ({ · with removed := true })).scopeAt t := by
      simp only [detachScope, hup]
      rfl
    rw [hget, scopeAt_modifyScope, scopeAt_modifyScope, scopeAt_modifyScope]
    by_cases hts : t = s
    · subst hts
      by_cases htu : t = u
      · subst htu
        simp [hs.1]
      · simp [hs.1, htu, Ne.symm htu]
    · by_cases htu : t = u
      · subst htu
        simp [hts, hu, beq_eq_false_iff_ne.mpr hts]
      · simp [hts, htu, Ne.symm htu, beq_eq_false_iff_ne.mpr hts]

theorem upper_detachScope (h : g.TreeLinks) (hs : g.LiveScope s) (t : ScopeId) :
    ((g.detachScope s).scopeAt t).upper = (g.scopeAt t).upper := by
  rw [scopeAt_detachScope h hs]

theorem size_detachScope : (g.detachScope s).scopes.size = g.scopes.size := by
  unfold detachScope retireScope
  cases (g.scopeAt s).upper <;> simp [modifyScope]

theorem Retired.detachScope (h : g.TreeLinks) (hs : g.LiveScope s) :
    Retired g (g.detachScope s) s where
  live := by
    intro t
    rw [LiveScope, LiveScope, size_detachScope, scopeAt_detachScope h hs]
    simp only [Bool.or_eq_false_iff, beq_eq_false_iff_ne, ne_eq]
    tauto
  vars := by
    unfold ScopeGraph.detachScope
    cases (g.scopeAt s).upper <;> rfl
  references := by
    unfold ScopeGraph.detachScope
    cases (g.scopeAt s).upper <;> rfl
  kept := by
    intro t _
    rw [scopeAt_detachScope h hs]
    exact ⟨rfl, rfl, rfl, rfl⟩

/-- A scope without children may go. -/
theorem TreeLinks.detachScope (h : g.TreeLinks) (hs : g.LiveScope s)
    (hleaf : (g.scopeAt s).children = []) : (g.detachScope s).TreeLinks := by
  have hlive := (Retired.detachScope h hs).live
  have hup := up_congr (upper_detachScope h hs)
  have hnone : ∀ {t}, g.LiveScope t → ¬ g.Up t s := by
    intro t ht hts
    have hmem := (h.mem_children hs).mpr ⟨ht, hts⟩
    rw [hleaf] at hmem
    cases hmem
  refine ⟨?_, ?_, ?_, ?_⟩
  · intro t
    rw [hlive]
    rintro ⟨ht, -⟩
    obtain ⟨l, hl⟩ := h.rooted ht
    exact ⟨l, Chain.congr (upper_detachScope h hs) hl⟩
  · intro t u
    rw [hlive, hlive, hup]
    rintro ⟨ht, -⟩ htu
    refine ⟨h.upper_live ht htu, ?_⟩
    rintro rfl
    exact hnone ht htu
  · intro t
    rw [hlive, scopeAt_detachScope h hs]
    rintro ⟨ht, -⟩
    split
    · exact (h.children_nodup ht).filter _
    · exact h.children_nodup ht
  · intro t c
    rw [hlive, hlive, hup, scopeAt_detachScope h hs]
    rintro ⟨ht, -⟩
    have hmem : c ∈ (g.scopeAt t).children ↔ g.LiveScope c ∧ g.Up c t := h.mem_children ht
    split
    · simp only [mem_filter, hmem, bne_iff_ne]
      tauto
    · rename_i hst
      rw [hmem]
      constructor
      · rintro ⟨hc, hct⟩
        refine ⟨⟨hc, ?_⟩, hct⟩
        rintro rfl
        exact hst hct
      · rintro ⟨⟨hc, -⟩, hct⟩
        exact ⟨hc, hct⟩

/-- A scope with nothing in it may go. -/
theorem WellFormed.detachScope (h : g.WellFormed settled) (hs : g.LiveScope s)
    (hleaf : (g.scopeAt s).children = []) (hvars : (g.scopeAt s).vars = [])
    (hrefs : (g.scopeAt s).references = []) : (g.detachScope s).WellFormed settled := by
  have hr := Retired.detachScope h.tree hs
  have hadopting := h.declarations.adopting hs
  rw [hvars] at hadopting
  refine ⟨h.tree.detachScope hs hleaf, hr.declarations hadopting,
    hr.places h.places hs hrefs, hr.bindings h.bindings, hr.through h.through, ?_⟩
  intro r
  rw [hr.liveReference_iff]
  intro hlive hnot
  exact hr.flow (below_congr (upper_detachScope h.tree hs)) (h.flow hlive hnot)

/-- Removing several variables leaves just the others. -/
theorem WellFormed.deleteVariables {vs : List VariableId} (h : g.WellFormed settled)
    (hvs : ∀ v ∈ vs, g.LiveVariable v) (hnodup : vs.Nodup) :
    (vs.foldl ScopeGraph.deleteVariable g).WellFormed settled ∧
      ∀ w, (vs.foldl ScopeGraph.deleteVariable g).LiveVariable w ↔ g.LiveVariable w ∧ w ∉ vs := by
  induction vs generalizing g with
  | nil => exact ⟨h, by simp⟩
  | cons v vs ih =>
    obtain ⟨hnotin, hnodup⟩ := nodup_cons.mp hnodup
    have hvs' : ∀ w ∈ vs, (g.deleteVariable v).LiveVariable w := by
      intro w hw
      rw [liveVariable_deleteVariable]
      exact ⟨hvs w (mem_cons_of_mem _ hw), fun he => hnotin (he ▸ hw)⟩
    obtain ⟨hwf, hlive⟩ := ih (h.deleteVariable (hvs v (by simp))) hvs' hnodup
    refine ⟨hwf, fun w => ?_⟩
    rw [foldl_cons, hlive, liveVariable_deleteVariable, mem_cons]
    tauto

/-- A graph with fewer live scopes and the same links upward. -/
structure Pruned (g g' : ScopeGraph) (gone : ScopeId → Prop) : Prop where
  size : g'.scopes.size = g.scopes.size
  upper : ∀ t, (g'.scopeAt t).upper = (g.scopeAt t).upper
  live : ∀ t, g'.LiveScope t ↔ g.LiveScope t ∧ ¬ gone t

/-- A scope that has no live scopes below it loses its references, its variables and itself. -/
def removeLeaf (g : ScopeGraph) (s : ScopeId) : ScopeGraph :=
  let unlinked := (g.scopeAt s).references.foldl unlinkReference g
  let bare := (unlinked.scopeAt s).vars.foldl deleteVariable unlinked
  bare.detachScope s

/-- A leaf has lost its contents when it is detached. -/
theorem removeLeaf_eq (view : ScopeGraph → β) [IgnoresContents view] (g : ScopeGraph)
    (s : ScopeId) : ∃ bare : ScopeGraph, view bare = view g ∧ g.removeLeaf s = bare.detachScope s :=
  ⟨_, (view_deleteVariables view).trans (view_unlinkReferences view), rfl⟩

theorem Pruned.removeLeaf (h : g.TreeLinks) (hs : g.LiveScope s) :
    Pruned g (g.removeLeaf s) (· = s) := by
  obtain ⟨bare, htree, heq⟩ := removeLeaf_eq treeView g s
  have hs' : bare.LiveScope s := hs.of_tree htree
  have htrees := h.congr htree
  rw [heq]
  refine ⟨?_, ?_, ?_⟩
  · rw [size_detachScope, size_congr htree]
  · intro t
    rw [upper_detachScope htrees hs', upper_congr htree]
  · intro t
    rw [(Retired.detachScope htrees hs').live, liveScope_congr htree]

theorem WellFormed.removeLeaf (h : g.WellFormed settled) (hs : g.LiveScope s)
    (hleaf : (g.scopeAt s).children = []) : (g.removeLeaf s).WellFormed settled := by
  let unlinked := (g.scopeAt s).references.foldl ScopeGraph.unlinkReference g
  let bare := (unlinked.scopeAt s).vars.foldl ScopeGraph.deleteVariable unlinked
  obtain ⟨hunlinked, hrefs⟩ := h.unlinkReferences (g.scopeAt s).references
  have htree : unlinked.treeView = g.treeView := view_unlinkReferences treeView
  have hs1 : unlinked.LiveScope s := hs.of_tree htree
  have hmem := @DeclarationLinks.mem_vars _ hunlinked.declarations s
  obtain ⟨hbare, hlive⟩ := hunlinked.deleteVariables (fun v hv => ((hmem hs1).mp hv).1)
    (hunlinked.declarations.vars_nodup hs1)
  have htree' : bare.treeView = g.treeView := (view_deleteVariables treeView).trans htree
  have hs2 : bare.LiveScope s := hs.of_tree htree'
  have hleaf2 : (bare.scopeAt s).children = [] := by
    rw [children_congr htree', hleaf]
  have hvars2 : (bare.scopeAt s).vars = [] := by
    rw [eq_nil_iff_forall_not_mem]
    intro v hv
    obtain ⟨hv1, hscope⟩ := (hbare.declarations.mem_vars hs2).mp hv
    obtain ⟨hv0, hnotin⟩ := (hlive v).mp hv1
    rw [view_foldl (fun g => (g.variableAt v).scope) fun _ _ => scope_deleteVariable v] at hscope
    exact hnotin ((hmem hs1).mpr ⟨hv0, hscope⟩)
  have hrefs2 : (bare.scopeAt s).references = [] := by
    rw [references_congr (view_deleteVariables placeView), eq_nil_iff_forall_not_mem]
    intro r hr
    obtain ⟨hr1, hsource⟩ := (hunlinked.places.mem_references hs1).mp hr
    obtain ⟨hr0, hnotin⟩ := (hrefs r).mp hr1
    rw [view_foldl (fun g => (g.referenceAt r).source) fun _ _ => source_unlinkReference
      r] at hsource
    exact hnotin ((h.places.mem_references hs).mpr ⟨hr0, hsource⟩)
  exact hbare.detachScope hs2 hleaf2 hvars2 hrefs2

theorem length_ancestors_of_up (h : g.TreeLinks) (hc : g.LiveScope c)
    (hup : g.Up c s) : (g.ancestors c).length = (g.ancestors s).length + 1 := by
  have hs := h.upper_live hc hup
  rw [(h.chain_ancestors hc).unique (.step hup (h.chain_ancestors hs)), length_cons]

theorem Pruned.below {g' : ScopeGraph} {gone : ScopeId → Prop} (hp : Pruned g g' gone) :
    g'.Below = g.Below := below_congr hp.upper

/-- A scope directly below another one is not above it. -/
theorem TreeLinks.not_below_of_up (h : g.TreeLinks) (hc : g.LiveScope c) (hup : g.Up c s) :
    ¬ g.Below s c := by
  intro hsc
  have hs := h.upper_live hc hup
  exact (h.chain_ancestors hs).notMem_of_up hup ((h.mem_ancestors hs).mpr hsc)

/-- A child of a scope is not below another one. -/
theorem TreeLinks.not_below_sibling (h : g.TreeLinks) {d : ScopeId} (hd : g.LiveScope d)
    (hcs : g.Up c s) (hds : g.Up d s) (hne : c ≠ d) : ¬ g.Below c d := by
  intro hcd
  rcases hcd.cases_head with heq | ⟨u, hcu, hud⟩
  · exact hne heq
  · cases upper_unique g hcs hcu
    exact h.not_below_of_up hd hds hud

/-- The scopes below a scope are itself and those below its children. -/
theorem TreeLinks.below_iff (h : g.TreeLinks) (hs : g.LiveScope s) (ht : g.LiveScope t) :
    g.Below t s ↔ t = s ∨ ∃ c ∈ (g.scopeAt s).children, g.Below t c := by
  constructor
  · intro hts
    rcases hts.cases_tail with heq | ⟨c, htc, hcs⟩
    · exact .inl heq.symm
    · exact .inr ⟨c, (h.mem_children hs).mpr ⟨h.live_of_below ht htc, hcs⟩, htc⟩
  · rintro (rfl | ⟨c, hc, htc⟩)
    · exact .refl
    · exact htc.tail ((h.mem_children hs).mp hc).2

/-- Scopes are removed one after the other, each after those below it. This is the recursion itself,
with no bound on its depth: there is an outcome just when it comes to an end. -/
inductive Removes : ScopeGraph → List ScopeId → ScopeGraph → Prop
  | nil {g : ScopeGraph} : Removes g [] g
  | cons {g bare g' : ScopeGraph} {s : ScopeId} {ss : List ScopeId} :
    Removes g (g.scopeAt s).children bare → Removes (bare.removeLeaf s) ss g' →
      Removes g (s :: ss) g'

namespace Removes

variable {g1 g2 : ScopeGraph} {ss ts : List ScopeId}

theorem append (h : g.Removes ss g1) (h' : g1.Removes ts g2) : g.Removes (ss ++ ts) g2 := by
  induction h with
  | nil => exact h'
  | cons hbelow _ _ ih => exact .cons hbelow (ih h')

theorem unique (h : g.Removes ss g1) (h' : g.Removes ss g2) : g1 = g2 := by
  induction h generalizing g2 with
  | nil =>
    cases h'
    rfl
  | cons _ _ ihbelow ih =>
    cases h' with
    | cons hbelow hrest =>
      cases ihbelow hbelow
      exact ih hrest

end Removes

section Prune

variable {Inv : ScopeGraph → Prop}

/-- The children are distinct, so the removal of one leaves the others live. -/
theorem pruneChildren {remove : ScopeGraph → ScopeId → ScopeGraph}
    (htree : ∀ {g}, Inv g → g.TreeLinks)
    (hremove : ∀ {g c}, Inv g → g.LiveScope c → g.scopes.size < fuel + (g.ancestors c).length →
      Inv (remove g c) ∧ g.Removes [c] (remove g c) ∧ Pruned g (remove g c) (g.Below · c))
    {cs : List ScopeId}
    (h : Inv g) (hs : g.LiveScope s) (hfuel : g.scopes.size < fuel + 1 + (g.ancestors s).length)
    (hnodup : cs.Nodup) (hcs : ∀ c ∈ cs, g.LiveScope c ∧ g.Up c s) :
    Inv (cs.foldl remove g) ∧ g.Removes cs (cs.foldl remove g) ∧
      Pruned g (cs.foldl remove g) fun t => ∃ c ∈ cs, g.Below t c := by
  induction cs generalizing g with
  | nil => exact ⟨h, .nil, rfl, fun _ => rfl, by simp⟩
  | cons c cs ih =>
    obtain ⟨hnotin, hnodup⟩ := nodup_cons.mp hnodup
    obtain ⟨hc, hup⟩ := hcs c (by simp)
    have hlen := length_ancestors_of_up (htree h) hc hup
    obtain ⟨hinv, hremoves, hpruned⟩ := hremove h hc (by omega)
    have hs' : (remove g c).LiveScope s :=
      (hpruned.live s).mpr ⟨hs, (htree h).not_below_of_up hc hup⟩
    have hfuel' : (remove g c).scopes.size < fuel + 1 + ((remove g c).ancestors s).length := by
      rw [hpruned.size, ancestors_congr hpruned.size hpruned.upper s]
      exact hfuel
    have hcs' : ∀ d ∈ cs, (remove g c).LiveScope d ∧ (remove g c).Up d s := by
      intro d hd
      obtain ⟨hdlive, hdup⟩ := hcs d (mem_cons_of_mem _ hd)
      have hne : d ≠ c := fun he => hnotin (he ▸ hd)
      rw [hpruned.live, up_congr hpruned.upper]
      exact ⟨⟨hdlive, (htree h).not_below_sibling hc hdup hup hne⟩, hdup⟩
    obtain ⟨hinv', hremoves', hpruned'⟩ := ih hinv hs' hfuel' hnodup hcs'
    refine ⟨hinv', hremoves.append hremoves', hpruned'.size.trans hpruned.size,
      fun t => (hpruned'.upper t).trans (hpruned.upper t), ?_⟩
    intro t
    rw [foldl_cons, hpruned'.live, hpruned.live, hpruned.below]
    simp only [mem_cons, exists_eq_or_imp]
    rw [not_or, and_assoc]

section

variable (htree : ∀ {g}, Inv g → g.TreeLinks)
  (hleaf : ∀ {g s}, Inv g → g.LiveScope s → (g.scopeAt s).children = [] → Inv (g.removeLeaf s))
    (h : Inv g)
  (hs : g.LiveScope s)

include htree hleaf h hs

/-- With enough fuel, just the scopes at or below `s` go. -/
theorem prune_removeScopeWithin (hfuel : g.scopes.size < fuel + (g.ancestors s).length) :
    Inv (removeScopeWithin fuel g s) ∧ g.Removes [s] (removeScopeWithin fuel g s) ∧
      Pruned g (removeScopeWithin fuel g s) (g.Below · s) := by
  induction fuel generalizing g s with
  | zero =>
    have hchain := (htree h).chain_ancestors hs
    have hle := hchain.length_le fun t ht =>
      ((htree h).live_of_below hs (hchain.mem_iff.mp ht)).1
    omega
  | succ fuel ih =>
    have hmem := @TreeLinks.mem_children _ (htree h) s
    obtain ⟨hinv, hremoves, hpruned⟩ :=
      pruneChildren htree ih h hs hfuel ((htree h).children_nodup hs) fun c hc => (hmem hs).mp hc
    let bare := (g.scopeAt s).children.foldl (removeScopeWithin fuel) g
    have hs1 : bare.LiveScope s := by
      rw [hpruned.live]
      refine ⟨hs, ?_⟩
      rintro ⟨c, hc, hsc⟩
      exact (htree h).not_below_of_up ((hmem hs).mp hc).1 ((hmem hs).mp hc).2 hsc
    have hnone : (bare.scopeAt s).children = [] := by
      rw [eq_nil_iff_forall_not_mem]
      intro c hc
      obtain ⟨hlive, hup⟩ := ((htree hinv).mem_children hs1).mp hc
      rw [hpruned.live] at hlive
      rw [up_congr hpruned.upper] at hup
      exact hlive.2 ⟨c, (hmem hs).mpr ⟨hlive.1, hup⟩, .refl⟩
    have hpruned' := Pruned.removeLeaf (htree hinv) hs1
    have hstep : removeScopeWithin (fuel + 1) g s = bare.removeLeaf s := rfl
    rw [hstep]
    refine ⟨hleaf hinv hs1 hnone, .cons hremoves .nil, hpruned'.size.trans hpruned.size,
      fun t => (hpruned'.upper t).trans (hpruned.upper t), ?_⟩
    intro t
    rw [hpruned'.live, hpruned.live, and_assoc]
    refine and_congr_right fun ht => ?_
    rw [(htree h).below_iff hs ht, not_or, and_comm]

/-- There are enough scopes in a graph for the depth of any one of them. -/
theorem prune_removeScope :
    Inv (g.removeScope s) ∧ g.Removes [s] (g.removeScope s) ∧
      Pruned g (g.removeScope s) (g.Below · s) := by
  have hlen := length_pos_of_mem ((htree h).chain_ancestors hs).head_mem
  exact prune_removeScopeWithin htree hleaf h hs (Nat.lt_add_of_pos_right hlen)

end

/-- What the removal of a leaf keeps, the removal of a whole scope keeps. -/
theorem removeScope_of_removeLeaf (Inv : ScopeGraph → Prop) (htree : ∀ {g}, Inv g → g.TreeLinks)
    (hleaf : ∀ {g s}, Inv g → g.LiveScope s → (g.scopeAt s).children = [] → Inv (g.removeLeaf s))
    (h : Inv g) (hs : g.LiveScope s) : Inv (g.removeScope s) :=
  (prune_removeScope htree hleaf h hs).1

end Prune

theorem WellFormed.removeScope (h : g.WellFormed settled) (hs : g.LiveScope s) :
    (g.removeScope s).WellFormed settled :=
  removeScope_of_removeLeaf (fun g => g.WellFormed settled) (fun h => h.tree)
    (fun h hs hleaf => h.removeLeaf hs hleaf) h hs

end Loom.ScopeGraph
