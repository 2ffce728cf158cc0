import Loom.Proofs.Scope.Sound

/-!
What the removal of a scope leaves.

A scope goes with the scopes below it, their variables and their references. Everything else stays
as it was, and the lists that named something that went are the same lists without it. The scope
that is removed last has no scopes below it, so no reference from elsewhere is bound to its
variables, and none becomes free.
-/

open List

namespace Loom

open Variable

/-- The scope with some of its children and some of the references it lists. -/
def Scope.keep (x : Scope) (child : ScopeId → Bool) (reference : ReferenceId → Bool) : Scope :=
  { x with
    children := x.children.filter child
    references := x.references.filter reference
    through := x.through.filter reference }

/-- The variable with some of the references to it. -/
def Variable.keep (x : Variable) (reference : ReferenceId → Bool) : Variable :=
  { x with references := x.references.filter reference }

section Keep

variable {child child' : ScopeId → Bool} {reference reference' : ReferenceId → Bool}

theorem Scope.keep_keep (x : Scope) : (x.keep child reference).keep child' reference' =
    x.keep (fun c => child' c && child c) fun r => reference' r && reference r := by
  simp [keep, filter_filter]

theorem Scope.keep_congr {x : Scope} (hchild : ∀ c ∈ x.children, child c = child' c)
    (href : ∀ r ∈ x.references, reference r = reference' r)
    (hthrough : ∀ r ∈ x.through, reference r = reference' r) :
    x.keep child reference = x.keep child' reference' := by
  unfold keep
  rw [filter_congr hchild, filter_congr href, filter_congr hthrough]

theorem Scope.keep_all (x : Scope) : x.keep (fun _ => true) (fun _ => true) = x := by
  simp [keep]

theorem Variable.keep_keep (x : Variable) :
    (x.keep reference).keep reference' = x.keep fun r => reference' r && reference r := by
  simp [keep, filter_filter]

theorem Variable.keep_congr {x : Variable} (href : ∀ r ∈ x.references, reference r = reference' r) :
    x.keep reference = x.keep reference' := by
  unfold keep
  rw [filter_congr href]

theorem Variable.keep_all (x : Variable) : x.keep (fun _ => true) = x := by
  simp [keep]

end Keep

namespace ScopeGraph

variable {g : ScopeGraph} {settled : ReferenceId → Prop}

/-- `g'` is `g` without the scopes that are gone and what is in them. The rest is as it was, and the
lists keep their order. -/
structure Without (g g' : ScopeGraph) (gone : ScopeId → Bool) : Prop where
  liveScope : ∀ t, g'.LiveScope t ↔ g.LiveScope t ∧ gone t = false
  liveVariable : ∀ v, g'.LiveVariable v ↔ g.LiveVariable v ∧ gone (g.variableAt v).scope = false
  liveReference : ∀ r, g'.LiveReference r ↔ g.LiveReference r ∧
    gone (g.referenceAt r).source = false
  scopeAt : ∀ t, g'.LiveScope t →
    g'.scopeAt t = (g.scopeAt t).keep (fun c => !gone c) fun r => !gone (g.referenceAt r).source
  variableAt : ∀ v, g'.LiveVariable v → g'.variableAt v = (g.variableAt v).keep
    fun r => !gone (g.referenceAt r).source
  referenceAt : ∀ r, g'.LiveReference r → g'.referenceAt r = g.referenceAt r

namespace Without

variable {g1 g2 : ScopeGraph} {p q : ScopeId → Bool}

theorem refl (g : ScopeGraph) : g.Without g fun _ => false := by
  constructor <;> simp [Scope.keep_all, keep_all]

/-- Only what is said of live scopes counts. -/
theorem congr (h : g.WellFormed settled) (hp : g.Without g1 p)
    (heq : ∀ t, g.LiveScope t → p t = q t) : g.Without g1 q := by
  have href : ∀ r, g.LiveReference r → p (g.referenceAt r).source = q (g.referenceAt r).source :=
    fun r hr => heq _ (h.places.source_live hr)
  constructor
  case liveScope =>
    intro t
    rw [hp.liveScope]
    exact and_congr_right fun ht => by rw [heq t ht]
  case liveVariable =>
    intro v
    rw [hp.liveVariable]
    exact and_congr_right fun hv => by rw [heq _ (h.declarations.scope_live hv)]
  case liveReference =>
    intro r
    rw [hp.liveReference]
    exact and_congr_right fun hr => by rw [href r hr]
  case scopeAt =>
    intro t ht
    have hlive : g.LiveScope t := ((hp.liveScope t).mp ht).1
    rw [hp.scopeAt t ht]
    apply Scope.keep_congr
    · intro c hc
      rw [heq c ((h.tree.mem_children hlive).mp hc).1]
    · intro r hr
      rw [href r ((h.places.mem_references hlive).mp hr).1]
    · intro r hr
      rw [href r (h.through.live hlive hr)]
  case variableAt =>
    intro v hv
    rw [hp.variableAt v hv]
    apply keep_congr
    intro r hr
    rw [href r (h.bindings.mem_references.mp hr).1]
  case referenceAt => exact hp.referenceAt

/-- What is left of what was left. -/
theorem trans (h : g.WellFormed settled) (hp : g.Without g1 p) (hq : g1.Without g2 q) :
    g.Without g2 fun t => p t || q t := by
  -- a reference that is listed and not gone is still live, so its scope is the same
  have hkept : ∀ r,
      g.LiveReference r → (!q (g1.referenceAt r).source && !p (g.referenceAt r).source) =
        !(p (g.referenceAt r).source || q (g.referenceAt r).source) := by
    intro r hr
    cases hgone : p (g.referenceAt r).source with
    | true => simp
    | false => simp [hp.referenceAt r ((hp.liveReference r).mpr ⟨hr, hgone⟩)]
  constructor
  case liveScope =>
    intro t
    simp [hq.liveScope, hp.liveScope, and_assoc]
  case liveVariable =>
    intro v
    simp only [hq.liveVariable, hp.liveVariable, Bool.or_eq_false_iff, and_assoc]
    refine and_congr_right fun hv => and_congr_right fun hgone => ?_
    rw [hp.variableAt v ((hp.liveVariable v).mpr ⟨hv, hgone⟩)]
    rfl
  case liveReference =>
    intro r
    simp only [hq.liveReference, hp.liveReference, Bool.or_eq_false_iff, and_assoc]
    refine and_congr_right fun hr => and_congr_right fun hgone => ?_
    rw [hp.referenceAt r ((hp.liveReference r).mpr ⟨hr, hgone⟩)]
  case scopeAt =>
    intro t ht
    have ht1 : g1.LiveScope t := ((hq.liveScope t).mp ht).1
    have ht0 : g.LiveScope t := ((hp.liveScope t).mp ht1).1
    rw [hq.scopeAt t ht, hp.scopeAt t ht1, Scope.keep_keep]
    apply Scope.keep_congr
    · intro c _
      simp [Bool.and_comm]
    · intro r hr
      exact hkept r ((h.places.mem_references ht0).mp hr).1
    · intro r hr
      exact hkept r (h.through.live ht0 hr)
  case variableAt =>
    intro v hv
    rw [hq.variableAt v hv, hp.variableAt v ((hq.liveVariable v).mp hv).1, keep_keep]
    apply keep_congr
    intro r hr
    exact hkept r (h.bindings.mem_references.mp hr).1
  case referenceAt =>
    intro r hr
    rw [hq.referenceAt r hr, hp.referenceAt r ((hq.liveReference r).mp hr).1]

end Without

/-! References that go. -/

section Unlink

variable {r : ReferenceId}

theorem filter_ne_eq_self {xs : List Nat} {x : Nat} (h : x ∉ xs) : xs.filter (· != x) = xs := by
  apply filter_eq_self.mpr
  intro y hy
  simp only [bne_iff_ne]
  intro heq
  exact h (heq ▸ hy)

/-- A scope loses the reference from its lists, and nothing else. -/
theorem WellFormed.scopeAt_unlinkReference (h : g.WellFormed settled) (r : ReferenceId)
    {t : ScopeId} (ht : g.LiveScope t) :
    (g.unlinkReference r).scopeAt t = (g.scopeAt t).keep (fun _ => true) (· != r) := by
  have hplace : (g.unlinkPlace r).scopeAt t = { g.scopeAt t with
      references := (g.scopeAt t).references.filter (· != r) } := by
    have hsame : (g.unlinkPlace r).scopeAt t = (g.modifyScope (g.referenceAt r).source fun s =>
        { s with references := s.references.filter (· != r) }).scopeAt t := by
      unfold unlinkPlace dropBound
      cases (g.referenceAt r).resolved <;> rfl
    rw [hsame, scopeAt_modifyScope]
    by_cases hsource : t = (g.referenceAt r).source
    · simp [← hsource, ht.1]
    · have hout : r ∉ (g.scopeAt t).references := fun hr =>
        hsource ((h.places.mem_references ht).mp hr).2.symm
      simp [hsource, filter_ne_eq_self hout]
  have hthrough : t ∉ g.ancestors (g.referenceAt r).source → r ∉ (g.scopeAt t).through := by
    intro hout hr
    have hlive := h.through.live ht hr
    have hpass := (((h.flow hlive id).mem_through ht).mp hr).2.1
    exact hout ((h.tree.mem_ancestors (h.places.source_live hlive)).mpr hpass)
  rw [unlinkReference_eq, scopeAt_dropThrough, hplace]
  by_cases hin : t ∈ g.ancestors (g.referenceAt r).source
  · simp [hin, Scope.keep]
  · simp [hin, Scope.keep, filter_ne_eq_self (hthrough hin)]

theorem BindingLinks.variableAt_unlinkReference (h : g.BindingLinks) (r : ReferenceId)
    (v : VariableId) : (g.unlinkReference r).variableAt v = (g.variableAt v).keep (· != r) := by
  have hget : (g.unlinkReference r).variableAt v =
      (g.dropBound r (g.referenceAt r).resolved).variableAt v := by
    rw [unlinkReference_eq, variableAt_dropThrough]
    unfold unlinkPlace dropBound
    cases (g.referenceAt r).resolved <;> rfl
  rw [hget]
  by_cases hr : r ∈ (g.variableAt v).references
  · obtain ⟨hlive, hres⟩ := h.mem_references.mp hr
    simp [hres, dropBound, variableAt_modifyVariable, (h.bound_live hlive hres).1, keep]
  · have hself : (g.variableAt v).keep (· != r) = g.variableAt v := by
      rw [keep, filter_ne_eq_self hr]
    cases hres : (g.referenceAt r).resolved with
    | none => simp [dropBound, hself]
    | some w =>
      rw [dropBound, variableAt_modifyVariable]
      split
      · rename_i hv
        rw [← hv.1]
        rfl
      · exact hself.symm

theorem referenceAt_unlinkReference {q : ReferenceId} (hne : q ≠ r) :
    (g.unlinkReference r).referenceAt q = g.referenceAt q := by
  rw [unlinkReference_eq, referenceAt_dropThrough, referenceAt_unlinkPlace]
  simp [hne]

variable {rs : List ReferenceId}

theorem WellFormed.scopeAt_unlinkReferences (h : g.WellFormed settled) (rs : List ReferenceId)
    {t : ScopeId} (ht : g.LiveScope t) :
    (rs.foldl ScopeGraph.unlinkReference g).scopeAt t = (g.scopeAt t).keep (fun _ => true)
      fun r => !rs.contains r := by
  induction rs generalizing g with
  | nil => simp [Scope.keep_all]
  | cons r rs ih =>
    have ht' : (g.unlinkReference r).LiveScope t := ht.of_tree (view_unlinkReference treeView)
    rw [foldl_cons, ih (h.unlinkReference r) ht', h.scopeAt_unlinkReference r ht, Scope.keep_keep]
    simp only [contains_cons, Bool.not_or, bne, Bool.and_true, Bool.and_comm]

theorem WellFormed.variableAt_unlinkReferences (h : g.WellFormed settled) (rs : List ReferenceId)
    (v : VariableId) :
    (rs.foldl ScopeGraph.unlinkReference g).variableAt v = (g.variableAt v).keep
      fun r => !rs.contains r := by
  induction rs generalizing g with
  | nil => simp [keep_all]
  | cons r rs ih =>
    rw [foldl_cons, ih (h.unlinkReference r), h.bindings.variableAt_unlinkReference r v, keep_keep]
    simp only [contains_cons, Bool.not_or, bne, Bool.and_comm]

theorem referenceAt_unlinkReferences {q : ReferenceId} (hq : q ∉ rs) :
    (rs.foldl unlinkReference g).referenceAt q = g.referenceAt q := by
  induction rs generalizing g with
  | nil => rfl
  | cons r rs ih =>
    rw [mem_cons, not_or] at hq
    rw [foldl_cons, ih hq.2, referenceAt_unlinkReference hq.1]

end Unlink

/-! Variables that nothing is bound to. -/

section Delete

variable {v : VariableId} {vs : List VariableId} {s : ScopeId}

theorem deleteVariable_of_unused (hv : (g.variableAt v).references = []) :
    g.deleteVariable v = g.retireVariable v := by
  rw [deleteVariable_eq, hv]
  rfl

/-- Deleting unused variables of a scope changes them and their scope. -/
theorem deleteVariables_unused
    (hvs : ∀ v ∈ vs, (g.variableAt v).references = [] ∧ (g.variableAt v).scope = s) :
    (∀ t, t ≠ s → (vs.foldl deleteVariable g).scopeAt t = g.scopeAt t) ∧
      (∀ w, w ∉ vs → (vs.foldl deleteVariable g).variableAt w = g.variableAt w) ∧
      ∀ r, (vs.foldl deleteVariable g).referenceAt r = g.referenceAt r := by
  induction vs generalizing g with
  | nil => simp
  | cons v vs ih =>
    obtain ⟨hunused, hscope⟩ := hvs v (by simp)
    have hrest : ∀ w ∈ vs, ((g.retireVariable v).variableAt w).references = [] ∧
        ((g.retireVariable v).variableAt w).scope = s := by
      intro w hw
      rw [variableAt_retireVariable]
      split
      · exact ⟨rfl, hscope⟩
      · exact hvs w (mem_cons_of_mem _ hw)
    obtain ⟨hscopes, hvars, hrefs⟩ := ih hrest
    rw [foldl_cons, deleteVariable_of_unused hunused]
    refine ⟨?_, ?_, hrefs⟩
    · intro t ht
      rw [hscopes t ht, scopeAt_retireVariable, hscope]
      simp [ht]
    · intro w hw
      rw [mem_cons, not_or] at hw
      rw [hvars w hw.2, variableAt_retireVariable]
      simp [hw.1]

end Delete

/-! The removal of a scope. -/

section Leaf

variable {s : ScopeId}

/-- In a graph where a scope has no scopes below it and no references, its variables are unused. -/
theorem WellFormed.unused_of_leaf (h : g.WellFormed settled) (hs : g.LiveScope s)
    (hleaf : (g.scopeAt s).children = []) (hbare : (g.scopeAt s).references = []) {v : VariableId}
    (hv : v ∈ (g.scopeAt s).vars) : (g.variableAt v).references = [] := by
  apply eq_nil_iff_forall_not_mem.mpr
  intro r hr
  obtain ⟨hlive, hres⟩ := h.bindings.mem_references.mp hr
  have hscope : (g.variableAt v).scope = s := ((h.declarations.mem_vars hs).mp hv).2
  have howner : g.owner? r = some s := by simp [owner?, hres, hscope]
  have hbelow : g.Below (g.referenceAt r).source s := (h.flow hlive id).below_owner howner
  -- the way up from the reference ends in the scope, so it starts there
  have hsource : (g.referenceAt r).source = s := by
    rcases (h.tree.below_iff hs (h.places.source_live hlive)).mp hbelow with heq | ⟨c, hc, -⟩
    · exact heq
    · simp [hleaf] at hc
  have hmem := (h.places.mem_references hs).mpr ⟨hlive, hsource⟩
  simp [hbare] at hmem

/-- The upper scope of a scope that is taken out loses it from its children. -/
theorem TreeLinks.scopeAt_detachScope_ne (h : g.TreeLinks) (hs : g.LiveScope s) {t : ScopeId}
    (ht : g.LiveScope t) (hne : t ≠ s) :
    (g.detachScope s).scopeAt t = (g.scopeAt t).keep (fun c => !(c == s)) fun _ => true := by
  rw [scopeAt_detachScope h hs]
  by_cases hup : (g.scopeAt s).upper = some t
  · simp [hup, hne, Scope.keep, bne]
  · have hout : s ∉ (g.scopeAt t).children := fun hc => hup ((h.mem_children ht).mp hc).2
    have hself := filter_ne_eq_self hout
    simp only [bne] at hself
    simp [hup, hne, Scope.keep, hself]

/-- The references made in a scope are the live ones with that source. -/
theorem PlaceLinks.contains_references (h : g.PlaceLinks) (hs : g.LiveScope s) {r : ReferenceId}
    (hr : g.LiveReference r) :
    (g.scopeAt s).references.contains r = ((g.referenceAt r).source == s) := by
  have hiff : r ∈ (g.scopeAt s).references ↔ (g.referenceAt r).source = s := by
    rw [h.mem_references hs]
    exact and_iff_right hr
  by_cases hin : (g.referenceAt r).source = s
  · simp [hin, hiff.mpr hin]
  · simp [hin, mt hiff.mp hin]

/-- A graph with the references of one scope unlinked. -/
theorem WellFormed.unlinkOwn (h : g.WellFormed settled) (hs : g.LiveScope s) :
    let unlinked := (g.scopeAt s).references.foldl ScopeGraph.unlinkReference g
    (∀ r, unlinked.LiveReference r ↔ g.LiveReference r ∧ ((g.referenceAt r).source == s) = false) ∧
      (∀ t, g.LiveScope t → unlinked.scopeAt t =
        (g.scopeAt t).keep (fun _ => true) fun r => !((g.referenceAt r).source == s)) ∧
      (∀ v, unlinked.variableAt v = (g.variableAt v).keep fun r => !((g.referenceAt r).source == s)) ∧
      ∀ r, unlinked.LiveReference r → unlinked.referenceAt r = g.referenceAt r := by
  intro unlinked
  have hlive := (h.unlinkReferences (g.scopeAt s).references).2
  have hkept : ∀ r, g.LiveReference r → (!(g.scopeAt s).references.contains r) =
      !((g.referenceAt r).source == s) :=
    fun r hr => congrArg (!·) (h.places.contains_references hs hr)
  refine ⟨?_, ?_, ?_, ?_⟩
  · intro r
    rw [hlive]
    refine and_congr_right fun hr => ?_
    rw [← h.places.contains_references hs hr]
    simp
  · intro t ht
    rw [h.scopeAt_unlinkReferences _ ht]
    apply Scope.keep_congr
    · exact fun _ _ => rfl
    · exact fun r hr => hkept r ((h.places.mem_references ht).mp hr).1
    · exact fun r hr => hkept r (h.through.live ht hr)
  · intro v
    rw [h.variableAt_unlinkReferences]
    apply keep_congr
    exact fun r hr => hkept r (h.bindings.mem_references.mp hr).1
  · intro r hr
    exact referenceAt_unlinkReferences ((hlive r).mp hr).2

theorem WellFormed.without_removeLeaf (h : g.WellFormed settled) (hs : g.LiveScope s)
    (hleaf : (g.scopeAt s).children = []) : g.Without (g.removeLeaf s) (· == s) := by
  let unlinked := (g.scopeAt s).references.foldl ScopeGraph.unlinkReference g
  let bare := (unlinked.scopeAt s).vars.foldl ScopeGraph.deleteVariable unlinked
  have hunlinked : unlinked.WellFormed settled := (h.unlinkReferences _).1
  obtain ⟨hrefs, hscopes, hvariables, hreferences⟩ := h.unlinkOwn hs
  have htree : unlinked.treeView = g.treeView := view_unlinkReferences treeView
  have hs1 : unlinked.LiveScope s := hs.of_tree htree
  have hvars : ∀ v, v ∈ (unlinked.scopeAt s).vars ↔ unlinked.LiveVariable v ∧
      (unlinked.variableAt v).scope = s :=
    fun v => hunlinked.declarations.mem_vars hs1
  -- no reference is left that the variables of the scope could have
  have hunused : ∀ v ∈ (unlinked.scopeAt s).vars,
      (unlinked.variableAt v).references = [] ∧ (unlinked.variableAt v).scope = s := by
    intro v hv
    refine ⟨hunlinked.unused_of_leaf hs1 ?_ ?_ hv, ((hvars v).mp hv).2⟩
    · rw [children_congr htree]
      exact hleaf
    · apply eq_nil_iff_forall_not_mem.mpr
      intro r hr
      obtain ⟨hr, hsource⟩ := (hunlinked.places.mem_references hs1).mp hr
      have hne := ((hrefs r).mp hr).2
      rw [← hreferences r hr, hsource] at hne
      simp at hne
  obtain ⟨hscopes', hvars', hrefs'⟩ := deleteVariables_unused hunused
  obtain ⟨-, hlive⟩ := hunlinked.deleteVariables (fun v hv => ((hvars v).mp hv).1)
    (hunlinked.declarations.vars_nodup hs1)
  have htree' : bare.treeView = g.treeView := (view_deleteVariables treeView).trans htree
  have hs2 : bare.LiveScope s := hs.of_tree htree'
  have hdetach := Retired.detachScope (h.tree.congr htree') hs2
  have hliveVariable : ∀ v, (g.removeLeaf s).LiveVariable v ↔
      unlinked.LiveVariable v ∧ v ∉ (unlinked.scopeAt s).vars :=
    fun v => hdetach.liveVariable_iff.trans (hlive v)
  have hliveReference : ∀ r, (g.removeLeaf s).LiveReference r ↔ unlinked.LiveReference r := by
    intro r
    have hplace : bare.placeView = unlinked.placeView := view_deleteVariables placeView
    rw [← liveReference_congr hplace]
    exact hdetach.liveReference_iff
  constructor
  case liveScope =>
    intro t
    simp [(Pruned.removeLeaf h.tree hs).live]
  case liveVariable =>
    intro v
    rw [hliveVariable, hvars, liveVariable_congr (view_unlinkReferences declView),
      scope_congr (view_unlinkReferences declView)]
    simp +contextual
  case liveReference =>
    intro r
    rw [hliveReference, hrefs]
  case scopeAt =>
    intro t ht
    obtain ⟨ht0, hne⟩ := ((Pruned.removeLeaf h.tree hs).live t).mp ht
    have ht2 : bare.LiveScope t := ht0.of_tree htree'
    calc (g.removeLeaf s).scopeAt t
      _ = (bare.scopeAt t).keep (fun c => !(c == s)) fun _ => true :=
        (h.tree.congr htree').scopeAt_detachScope_ne hs2 ht2 hne
      _ = ((g.scopeAt t).keep (fun _ => true) fun r => !((g.referenceAt r).source == s)).keep
            (fun c => !(c == s)) fun _ => true := by rw [hscopes' t hne, hscopes t ht0]
      _ = (g.scopeAt t).keep (fun c => !(c == s)) fun r => !((g.referenceAt r).source == s) := by
        simp [Scope.keep_keep]
  case variableAt =>
    intro v hv
    calc (g.removeLeaf s).variableAt v
      _ = bare.variableAt v := hdetach.variableAt_eq v
      _ = unlinked.variableAt v := hvars' v ((hliveVariable v).mp hv).2
      _ = (g.variableAt v).keep fun r => !((g.referenceAt r).source == s) := hvariables v
  case referenceAt =>
    intro r hr
    calc (g.removeLeaf s).referenceAt r
      _ = bare.referenceAt r := hdetach.referenceAt_eq r
      _ = unlinked.referenceAt r := hrefs' r
      _ = g.referenceAt r := hreferences r ((hliveReference r).mp hr)

end Leaf

end ScopeGraph

open ScopeGraph ScopeStep

/-- Removing a scope comes to an end, however deep the scopes below it go, and takes just these with
what is in them: what is left is as it was, and its lists are the old ones less what went. -/
theorem removeScope_erases {g : ScopeGraph} {settled : ReferenceId → Prop} {s : ScopeId}
    (h : g.WellFormed settled) (hs : g.LiveScope s) :
    (∀ g', g.Removes [s] g' ↔ g' = g.removeScope s) ∧
      (∀ t, g.LiveScope t → ((g.ancestors t).contains s = true ↔ g.Below t s)) ∧
      g.Without (g.removeScope s) fun t => (g.ancestors t).contains s := by
  have hleaf : ∀ {g' s}, (g'.WellFormed settled ∧ ∃ gone, g.Without g' gone) → g'.LiveScope s →
      (g'.scopeAt s).children = [] →
      (g'.removeLeaf s).WellFormed settled ∧ ∃ gone, g.Without (g'.removeLeaf s) gone := by
    intro g' s hinv hs hleaf
    obtain ⟨hwell, gone, hgone⟩ := hinv
    exact ⟨hwell.removeLeaf hs hleaf, _, hgone.trans h (hwell.without_removeLeaf hs hleaf)⟩
  obtain ⟨⟨-, gone, hgone⟩, hremoves, hpruned⟩ :=
    prune_removeScope (fun hinv => hinv.1.tree) hleaf ⟨h, _, .refl g⟩ hs
  have hbelow : ∀ t, g.LiveScope t → ((g.ancestors t).contains s = true ↔ g.Below t s) := by
    intro t ht
    rw [contains_iff_mem, h.tree.mem_ancestors ht]
  refine ⟨?_, hbelow, hgone.congr h ?_⟩
  · intro g'
    constructor
    · exact fun hg' => hg'.unique hremoves
    · rintro rfl
      exact hremoves
  · intro t ht
    have hiff : gone t = false ↔ ¬ g.Below t s := by
      have hlive := (hgone.liveScope t).symm.trans (hpruned.live t)
      simpa [ht] using hlive
    rw [Bool.eq_iff_iff, hbelow t ht, ← Bool.not_eq_false, hiff, not_not]

/-- A function with a block in it; the block uses variables of both scopes outside it, and a free
name. -/
def nestedRun : List ScopeStep :=
  [.addScope .global 0 none, .addScope .function 1 (some 0), .addScope .block 2 (some 1),
    .declare 0 "x" 3 .variable, .declare 1 "y" 4 .variable, .addReference 2 5 "x" .read false,
    .resolve 0,
    .addReference 0 6 "x" .write false, .resolve 1, .addReference 2 7 "y" .read false, .resolve 2,
    .addReference 2 8 "z" .read false, .resolve 3, .addReference 0 9 "z" .read false, .resolve 4]

/-- Of the references to `x` and the free ones, those in the block go with the function. -/
theorem removeScope_erases_nested :
    let g := run default nestedRun .empty
    g.WellFormed (fun _ => True) ∧ g.LiveScope 1 ∧ (g.variableAt 0).references = [0, 1] ∧
      (g.scopeAt 0).through = [3, 4] ∧ ((g.removeScope 1).variableAt 0).references = [1] ∧
      ((g.removeScope 1).scopeAt 0).through = [4] ∧ ((g.removeScope 1).scopeAt 0).children = [] ∧
      ¬ (g.removeScope 1).LiveScope 2 ∧ (g.removeScope 1).referenceAt 1 = g.referenceAt 1 := by
  intro g
  have hwell : g.WellFormed fun _ => True := .of_run (by decide +kernel) (by decide +kernel)
  have hs : g.LiveScope 1 := by decide +kernel
  obtain ⟨-, -, hwithout⟩ := removeScope_erases hwell hs
  refine ⟨hwell, hs, by decide +kernel, by decide +kernel, ?_, ?_, ?_, ?_, ?_⟩
  · decide +kernel
  · decide +kernel
  · decide +kernel
  · decide +kernel
  · exact hwithout.referenceAt 1 ((hwithout.liveReference 1).mpr (by decide +kernel))

end Loom
