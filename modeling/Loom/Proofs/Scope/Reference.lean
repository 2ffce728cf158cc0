import Loom.Proofs.Scope.Build

/-!
New references and references that go.

A new reference is not settled until it is looked up, unless it is made bound. A reference that goes
leaves its variable, its scope and the scopes that it passes through.
-/

namespace Loom.ScopeGraph

open Array

variable {q : ReferenceId} {s : ScopeId} {g : ScopeGraph} {settled open_ : ReferenceId → Prop}

/-! New references. -/

section PushReference

variable {x : Reference}

theorem referenceAt_pushReference (r : ReferenceId) :
    (g.pushReference x).2.referenceAt r = if r = g.references.size then x else g.referenceAt r :=
  getD_push ..

theorem referenceAt_of_size_le {r : ReferenceId} (hr : g.references.size ≤ r) :
    g.referenceAt r = default := by
  simp [referenceAt, getD_eq_getD_getElem?, getElem?_eq_none hr]

/-- A free new reference binds nothing. -/
theorem bindingView_pushReference (hx : x.resolved = none) :
    (g.pushReference x).2.bindingView = g.bindingView := by
  unfold bindingView
  congr 1
  funext r
  rw [referenceAt_pushReference]
  split
  · rename_i hr
    rw [hx, referenceAt_of_size_le (Nat.le_of_eq hr.symm)]
    rfl
  · rfl

theorem liveReference_pushReference (hx : x.removed = false) {r : ReferenceId} :
    (g.pushReference x).2.LiveReference r ↔ g.LiveReference r ∨ r = g.references.size := by
  have hsize : (g.pushReference x).2.references.size = g.references.size + 1 := size_push ..
  rw [LiveReference, LiveReference, hsize, referenceAt_pushReference]
  by_cases hr : r = g.references.size
  · simp [hr, hx]
  · have hlt : r < g.references.size + 1 ↔ r < g.references.size :=
      ⟨fun h => Nat.lt_of_le_of_ne (Nat.le_of_lt_succ h) hr, Nat.lt_succ_of_lt⟩
    simp [hr, hlt]

theorem references_pushReference (hx : g.LiveScope x.source) (s : ScopeId) :
    ((g.pushReference x).2.scopeAt s).references =
      if s = x.source then (g.scopeAt s).references ++ [g.references.size]
      else (g.scopeAt s).references := by
  have hget : (g.pushReference x).2.scopeAt s = (g.modifyScope x.source fun s =>
        { s with references := s.references ++ [g.references.size] }).scopeAt s := rfl
  rw [hget, scopeAt_modifyScope]
  by_cases hs : s = x.source <;> simp [hs, hx.1]

theorem PlaceLinks.pushReference (h : g.PlaceLinks) (hx : g.LiveScope x.source)
    (hrem : x.removed = false) : (g.pushReference x).2.PlaceLinks := by
  have hlive : (g.pushReference x).2.LiveScope = g.LiveScope :=
    liveScope_congr (view_pushReference treeView)
  have hold : ∀ {r}, g.LiveReference r → r ≠ g.references.size := fun hr => Nat.ne_of_lt hr.1
  refine ⟨?_, ?_⟩
  · intro r
    rw [liveReference_pushReference hrem, hlive, referenceAt_pushReference]
    rintro (hr | rfl)
    · rw [if_neg (hold hr)]
      exact h.source_live hr
    · rw [if_pos rfl]
      exact hx
  · intro s r
    rw [liveReference_pushReference hrem, hlive, referenceAt_pushReference,
      references_pushReference hx]
    intro hs
    have hmem : r ∈ (g.scopeAt s).references ↔ g.LiveReference r ∧ (g.referenceAt r).source = s :=
      h.mem_references hs
    by_cases hr : r = g.references.size
    · subst hr
      have hdead : ¬ g.LiveReference g.references.size := fun hr => hold hr rfl
      by_cases hsx : s = x.source
      · simp [hsx]
      · simp [hsx, Ne.symm hsx, hmem, hdead]
    · by_cases hsx : s = x.source
      · subst hsx
        simp [hr, hmem]
      · simp [hsx, hr, hmem]

/-- A new reference leaves all else as it is. -/
theorem WellFormedBut.pushReference (h : g.WellFormedBut settled open_)
    (hx : g.LiveScope x.source) (hfree : x.resolved = none) (hrem : x.removed = false) :
    (g.pushReference x).2.WellFormedBut settled fun r => open_ r ∨ r = g.references.size where
  tree := h.tree.congr (view_pushReference treeView)
  declarations := h.declarations.congr (view_pushReference treeView) (view_pushReference declView)
  places := h.places.pushReference hx hrem
  bindings :=
    { mem_references := by
        intro v r
        rw [liveReference_pushReference hrem, bound_congr (bindingView_pushReference hfree),
          resolved_congr (bindingView_pushReference hfree), h.bindings.mem_references]
        constructor
        · rintro ⟨hr, hv⟩
          exact ⟨.inl hr, hv⟩
        · rintro ⟨hr | rfl, hv⟩
          · exact ⟨hr, hv⟩
          · rw [referenceAt_of_size_le (Nat.le_refl _)] at hv
            cases hv
      bound_live := by
        intro r v
        rw [liveReference_pushReference hrem, resolved_congr (bindingView_pushReference hfree)]
        rintro (hr | rfl) hv
        · exact h.bindings.bound_live hr hv
        · rw [referenceAt_of_size_le (Nat.le_refl _)] at hv
          cases hv }
  through :=
    { live := by
        intro s r
        rw [liveScope_congr (view_pushReference treeView),
          through_congr (view_pushReference throughView), liveReference_pushReference hrem]
        intro hs hr
        exact .inl (h.through.live hs hr)
      nodup := by
        intro s
        rw [liveScope_congr (view_pushReference treeView), through_congr (view_pushReference throughView)]
        exact h.through.nodup }
  flow := by
    intro r
    rw [liveReference_pushReference hrem]
    rintro (hr | rfl) hnot
    · have hne := Nat.ne_of_lt hr.1
      have hat : (g.pushReference x).2.referenceAt r = g.referenceAt r := by
        rw [referenceAt_pushReference, if_neg hne]
      exact (h.flow hr fun ho => hnot (.inl ho)).congr (liveScope_congr (view_pushReference treeView))
        (below_congr_tree (view_pushReference treeView)) (by rw [hat])
        (owner_congr (view_pushReference declView) (by rw [hat]))
        (fun _ => by rw [through_congr (view_pushReference throughView)]) Iff.rfl
    · exact absurd (.inr rfl) hnot

end PushReference

/-- A reference that is only added is not settled. -/
theorem WellFormed.addReference {identifier : NodeId} {name : String} {access : Access}
    {init : Bool}
    (h : g.WellFormed settled) (hs : g.LiveScope s) (hnew : ¬ settled g.references.size) :
    (g.addReference s identifier name access init).2.WellFormed settled := by
  let x : Reference := ⟨identifier, name, s, none, access, init, false, false⟩
  have hpush : (g.pushReference x).2.WellFormedBut settled fun r => False ∨ r = g.references.size :=
    WellFormedBut.pushReference h hs rfl rfl
  have howner : (g.pushReference x).2.owner? g.references.size = none := by
    rw [owner?, referenceAt_pushReference, if_pos rfl]
    rfl
  change (g.pushReference x).2.WellFormed settled
  refine WellFormedBut.close hpush fun _ => .of_free (view_pushReference treeView) rfl howner
    fun ht => ?_
  rw [through_congr (view_pushReference throughView)]
  constructor
  · intro hmem
    exact absurd rfl (Nat.ne_of_lt (h.through.live ht hmem).1)
  · intro hset
    exact absurd hset.1 hnew

section Synthesize

variable {identifier : NodeId} {v : VariableId} {s : ScopeId} {access : Access}

/-- A synthesized reference is a free one that is bound at once and let through. -/
theorem synthesizeReference_eq (h : g.BindingLinks) :
    g.synthesizeReference identifier v s access = (g.references.size,
        ((g.ancestors s).takeWhile (· != (g.variableAt v).scope)).foldl (·.addThrough · g.references.size)
          ((g.pushReference ⟨identifier, (g.variableAt v).name, s, none, access, false, true, false⟩).2.link
              g.references.size v)) := by
  have hfresh : g.references.size ∉ (g.variableAt v).references := fun hmem =>
    absurd rfl (Nat.ne_of_lt (h.mem_references.mp hmem).1.1)
  have hrefs :
    (g.references.push ⟨identifier, (g.variableAt v).name, s, none, access, false, true,
      false⟩).modify
      g.references.size ({ · with resolved := some v }) =
      g.references.push ⟨identifier, (g.variableAt v).name, s, some v, access, false, true, false⟩ := by
    apply ext_getElem?
    intro i
    rw [getElem?_modify, getElem?_push, getElem?_push]
    by_cases hi : i = g.references.size
    · simp [hi]
    · simp [hi, Ne.symm hi]
  have hvars :
      g.vars.modify v (fun x => { x with references := x.references ++ [g.references.size] }) =
      g.vars.modify v fun x => { x with references := pushNew x.references g.references.size } := by
    apply ext_getElem?
    intro i
    rw [getElem?_modify, getElem?_modify]
    by_cases hi : v = i
    · subst hi
      cases hget : g.vars[v]? with
      | none => rfl
      | some x =>
        have hx : g.variableAt v = x := by simp [variableAt, getD_eq_getD_getElem?, hget]
        rw [hx] at hfresh
        simp [pushNew, hfresh]
    · simp [hi]
  have htree :
    (((g.pushReference ⟨identifier, (g.variableAt v).name, s, some v, access, false, true,
      false⟩).2.modifyVariable v fun x =>
        { x with references := x.references ++ [g.references.size] })).treeView = g.treeView :=
    view_pushReference treeView
  rw [← ancestors_congr_tree htree]
  unfold synthesizeReference link pushReference modifyScope modifyVariable modifyReference
  dsimp only
  rw [hrefs, hvars]

/-- A reference synthesized below the scope of its variable is settled. -/
theorem WellFormed.synthesizeReference (h : g.WellFormed settled) (hv : g.LiveVariable v)
    (hs : g.LiveScope s) (hbelow : g.Below s (g.variableAt v).scope) :
    (g.synthesizeReference identifier v s access).2.WellFormed
      fun r => settled r ∨ r = g.references.size := by
  let x : Reference := ⟨identifier, (g.variableAt v).name, s, none, access, false, true, false⟩
  let below := (g.ancestors s).takeWhile (· != (g.variableAt v).scope)
  rw [synthesizeReference_eq h.bindings]
  have hpush : (g.pushReference x).2.WellFormedBut (fun r => settled r ∨ r = g.references.size)
      fun r => False ∨ r = g.references.size := by
    refine (WellFormedBut.pushReference h hs rfl rfl).weaken fun {q} _ hq => ⟨hq, ?_⟩
    have hne : q ≠ g.references.size := fun he => hq (.inr he)
    simp [hne]
  have hlive : (g.pushReference x).2.LiveReference g.references.size :=
    (liveReference_pushReference rfl).mpr (.inr rfl)
  have hfree : ((g.pushReference x).2.referenceAt g.references.size).resolved = none := by
    rw [referenceAt_pushReference, if_pos rfl]
  have hv' : (g.pushReference x).2.LiveVariable v := hv.of_declaration (view_pushReference declView)
  have hlink := hpush.link hlive hfree hv' (.inr rfl)
  have hlive' : ((g.pushReference x).2.link g.references.size v).LiveReference g.references.size :=
    hlive.of_place (view_link placeView)
  refine (hlink.addThroughs below hlive' (.inr rfl)).close fun _ => ?_
  let bound :=
    below.foldl (·.addThrough · g.references.size) ((g.pushReference x).2.link g.references.size v)
  have htree : bound.treeView = g.treeView :=
    (view_addThroughs treeView).trans ((view_link treeView).trans (view_pushReference treeView))
  have hdecl : bound.declView = g.declView :=
    (view_addThroughs declView).trans ((view_link declView).trans (view_pushReference declView))
  have hsource : (bound.referenceAt g.references.size).source = s := by
    rw [source_congr ((view_addThroughs placeView).trans (view_link placeView)),
      referenceAt_pushReference, if_pos rfl]
  have howner : bound.owner? g.references.size = some (g.variableAt v).scope := by
    rw [owner?, resolved_congr (view_addThroughs bindingView), resolved_link hlive.1,
      if_pos rfl, Option.map_some, scope_congr hdecl]
  refine .of_bound htree hsource howner (.inr rfl) hbelow fun {t} ht => ?_
  have hold : g.references.size ∉ (g.scopeAt t).through := fun hmem =>
    absurd rfl (Nat.ne_of_lt (h.through.live ht hmem).1)
  rw [mem_addThroughs, through_congr (view_link throughView),
    through_congr (view_pushReference throughView),
    (h.tree.chain_ancestors hs).mem_takeWhile hbelow]
  have hsize : ((g.pushReference x).2.link g.references.size v).scopes.size = g.scopes.size :=
    size_congr (view_pushReference treeView)
  simp [hold, hsize, ht.1]

end Synthesize

/-! References that go. -/

/-- The graph with a reference taken out of the list of a variable, if there is one. -/
def dropBound (g : ScopeGraph) (r : ReferenceId) : Option VariableId → ScopeGraph
  | some v => g.modifyVariable v fun x => { x with references := x.references.filter (· != r) }
  | none => g

section DropBound

variable {r : ReferenceId} {v? : Option VariableId}

theorem view_dropBound {β : Type} (view : ScopeGraph → β) [IgnoresBindings view] :
    view (g.dropBound r v?) = view g := by
  cases v? with
  | none => rfl
  | some v => exact IgnoresBindings.bound

theorem mem_bound_dropBound {w : VariableId} : q ∈ ((g.dropBound r v?).variableAt w).references ↔
    q ∈ (g.variableAt w).references ∧ ¬ (q = r ∧ v? = some w) := by
  cases v? with
  | none => simp [dropBound]
  | some v =>
    rw [dropBound, variableAt_modifyVariable]
    by_cases hw : w = v
    · subst hw
      by_cases hsize : w < g.vars.size
      · simp [hsize]
      · have hnil : (g.variableAt w).references = [] := by
          rw [variableAt, getD_eq_getD_getElem?, getElem?_eq_none (Nat.le_of_not_lt hsize)]
          rfl
        simp [hsize, hnil]
    · simp [hw, Ne.symm hw]

end DropBound

section Unlink

variable {r : ReferenceId}

/-- The reference as removed and free, and out of the lists of its variable and its scope. -/
def unlinkPlace (g : ScopeGraph) (r : ReferenceId) : ScopeGraph :=
  ((g.modifyReference r ({ · with removed := true, resolved := none })).dropBound r
    (g.referenceAt r).resolved).modifyScope (g.referenceAt r).source fun s =>
      { s with references := s.references.filter (· != r) }

theorem view_unlinkPlace {β : Type} (view : ScopeGraph → β) [IgnoresReferences view] :
    view (g.unlinkPlace r) = view g :=
  IgnoresPlaces.made.trans ((view_dropBound view).trans IgnoresReferences.gone)

theorem throughView_unlinkPlace : (g.unlinkPlace r).throughView = g.throughView :=
  IgnoresPlaces.made.trans (view_dropBound throughView)

theorem unlinkReference_eq :
    g.unlinkReference r = (g.unlinkPlace r).dropThrough (g.ancestors (g.referenceAt r).source)
      r := by
  rw [← ancestors_congr_tree (view_unlinkPlace treeView)]
  unfold unlinkReference unlinkPlace dropBound
  cases hres : (g.referenceAt r).resolved <;> simp only [hres]

/-- What is left of the references themselves. -/
theorem referenceAt_unlinkPlace : (g.unlinkPlace r).referenceAt q =
    if q = r ∧ r < g.references.size then { g.referenceAt r with removed := true, resolved := none }
      else g.referenceAt q := by
  have hget : (g.unlinkPlace r).referenceAt q =
      (g.modifyReference r ({ · with removed := true, resolved := none })).referenceAt q := by
    unfold unlinkPlace dropBound
    cases (g.referenceAt r).resolved <;> rfl
  rw [hget, referenceAt_modifyReference]

theorem source_unlinkReference (q : ReferenceId) :
    ((g.unlinkReference r).referenceAt q).source = (g.referenceAt q).source := by
  rw [unlinkReference_eq, source_congr (view_dropThrough placeView), referenceAt_unlinkPlace]
  split
  · rename_i hq
    rw [hq.1]
  · rfl

theorem resolved_unlinkReference :
    ((g.unlinkReference r).referenceAt q).resolved = if q = r then none
      else (g.referenceAt q).resolved := by
  rw [unlinkReference_eq, resolved_congr (view_dropThrough bindingView), referenceAt_unlinkPlace]
  by_cases hq : q = r
  · subst hq
    by_cases hsize : q < g.references.size
    · simp [hsize]
    · rw [referenceAt_of_size_le (Nat.le_of_not_lt hsize)]
      simp [hsize, show (default : Reference).resolved = none from rfl]
  · simp [hq]

theorem liveReference_unlinkReference :
    (g.unlinkReference r).LiveReference q ↔ g.LiveReference q ∧ q ≠ r := by
  have hsize : (g.unlinkPlace r).references.size = g.references.size := by
    unfold unlinkPlace dropBound
    cases (g.referenceAt r).resolved <;> simp [modifyScope, modifyVariable, modifyReference]
  rw [unlinkReference_eq, liveReference_congr (view_dropThrough placeView), LiveReference,
    LiveReference, hsize, referenceAt_unlinkPlace]
  by_cases hq : q = r
  · subst hq
    by_cases hlt : q < g.references.size <;> simp [hlt]
  · simp [hq]

theorem mem_bound_unlinkReference (h : g.BindingLinks) {v : VariableId} :
    q ∈ ((g.unlinkReference r).variableAt v).references ↔ q ∈ (g.variableAt v).references ∧
      q ≠ r := by
  have hget : ((g.unlinkPlace r).variableAt v).references =
      (((g.modifyReference r ({ · with removed := true, resolved := none })).dropBound r
        (g.referenceAt r).resolved).variableAt v).references := rfl
  rw [unlinkReference_eq, bound_congr (view_dropThrough bindingView), hget, mem_bound_dropBound]
  constructor
  · rintro ⟨hmem, hnot⟩
    refine ⟨hmem, ?_⟩
    rintro rfl
    exact hnot ⟨rfl, (h.mem_references.mp hmem).2⟩
  · rintro ⟨hmem, hne⟩
    exact ⟨hmem, fun he => hne he.1⟩

theorem mem_references_unlinkReference (h : g.PlaceLinks) (hs : g.LiveScope s) :
    q ∈ ((g.unlinkReference r).scopeAt s).references ↔ q ∈ (g.scopeAt s).references ∧ q ≠ r := by
  have hold : (((g.modifyReference r ({ · with removed := true, resolved := none })).dropBound r
      (g.referenceAt r).resolved).scopeAt s).references = (g.scopeAt s).references :=
    references_congr (view_dropBound placeView) s
  rw [unlinkReference_eq, references_congr (view_dropThrough placeView), unlinkPlace,
    scopeAt_modifyScope]
  split
  · rename_i hs'
    rw [← hs'.1]
    simp [hold]
  · rename_i hs'
    rw [hold]
    rw [iff_self_and]
    rintro hmem rfl
    have hsize : ((g.modifyReference q ({ · with removed := true, resolved := none })).dropBound q
        (g.referenceAt q).resolved).scopes.size = g.scopes.size :=
      size_congr (view_dropBound treeView)
    have hsource := ((h.mem_references hs).mp hmem).2
    refine hs' ⟨hsource.symm, ?_⟩
    rw [hsize, hsource]
    exact hs.1

/-- Nothing of the reference is left in the scopes that it passes through. -/
theorem mem_unlinkReference (h : g.WellFormed settled) (hs : g.LiveScope s) :
    q ∈ ((g.unlinkReference r).scopeAt s).through ↔ q ∈ (g.scopeAt s).through ∧ q ≠ r := by
  rw [unlinkReference_eq, mem_dropThrough, through_congr throughView_unlinkPlace]
  constructor
  · rintro ⟨hmem, hnot⟩
    refine ⟨hmem, ?_⟩
    rintro rfl
    have hlive := h.through.live hs hmem
    have hpass := (((h.flow hlive id).mem_through hs).mp hmem).2
    exact hnot ⟨rfl, (h.tree.mem_ancestors (h.places.source_live hlive)).mpr hpass.1⟩
  · rintro ⟨hmem, hne⟩
    exact ⟨hmem, fun he => hne he.1⟩

theorem WellFormed.unlinkReference (h : g.WellFormed settled) (r : ReferenceId) :
    (g.unlinkReference r).WellFormed settled := by
  have hlive : (g.unlinkReference r).LiveScope = g.LiveScope :=
    liveScope_congr (view_unlinkReference treeView)
  refine ⟨h.tree.congr (view_unlinkReference treeView),
    h.declarations.congr (view_unlinkReference treeView) (view_unlinkReference declView),
    ⟨?_, ?_⟩, ⟨?_, ?_⟩, ⟨?_, ?_⟩, ?_⟩
  · intro q
    rw [liveReference_unlinkReference, hlive, source_unlinkReference]
    intro hq
    exact h.places.source_live hq.1
  · intro s q
    rw [hlive, liveReference_unlinkReference, source_unlinkReference]
    intro hs
    rw [mem_references_unlinkReference h.places hs, h.places.mem_references hs]
    tauto
  · intro v q
    rw [mem_bound_unlinkReference h.bindings, liveReference_unlinkReference,
      resolved_unlinkReference, h.bindings.mem_references]
    by_cases hq : q = r <;> simp [hq]
  · intro q v
    rw [liveReference_unlinkReference, resolved_unlinkReference,
      liveVariable_congr (view_unlinkReference declView)]
    rintro ⟨hq, hne⟩
    rw [if_neg hne]
    exact h.bindings.bound_live hq
  · intro s q
    rw [hlive, liveReference_unlinkReference]
    intro hs
    rw [mem_unlinkReference h hs]
    rintro ⟨hmem, hne⟩
    exact ⟨h.through.live hs hmem, hne⟩
  · intro s
    rw [hlive, unlinkReference_eq]
    intro hs
    refine nodup_through_dropThrough ?_
    rw [through_congr throughView_unlinkPlace]
    exact h.through.nodup hs
  · intro q
    rw [liveReference_unlinkReference]
    rintro ⟨hq, hne⟩ hnot
    exact (h.flow hq hnot).congr hlive (below_congr_tree (view_unlinkReference treeView))
      (source_unlinkReference q)
      (owner_congr (view_unlinkReference declView) (by rw [resolved_unlinkReference, if_neg hne]))
      (fun hs => by rw [mem_unlinkReference h hs]; simp [hne]) Iff.rfl

/-- Unlinking several references leaves just the others. -/
theorem WellFormed.unlinkReferences (h : g.WellFormed settled) (rs : List ReferenceId) :
    (rs.foldl ScopeGraph.unlinkReference g).WellFormed settled ∧
      ∀ q, (rs.foldl ScopeGraph.unlinkReference g).LiveReference q ↔ g.LiveReference q ∧ q ∉ rs := by
  induction rs generalizing g with
  | nil => exact ⟨h, by simp⟩
  | cons r rs ih =>
    obtain ⟨hwf, hlive⟩ := ih (h.unlinkReference r)
    refine ⟨hwf, fun q => ?_⟩
    rw [List.foldl_cons, hlive, liveReference_unlinkReference, List.mem_cons]
    tauto

end Unlink

end Loom.ScopeGraph
