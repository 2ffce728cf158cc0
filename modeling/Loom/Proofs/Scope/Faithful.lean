import Loom.Proofs.Scope.Extend
import Loom.Proofs.Scope.Lexical

/-!
Declarations that keep references bound to what they mean.

A new variable changes the meaning of its name for everything below its scope. Where no scope above
declares the name, the references that it changes are just the free ones that pass through its
scope, and these are bound to it.
-/

namespace Loom.ScopeGraph

variable {g g' : ScopeGraph} {home : ScopeId → Prop} {s t : ScopeId} {v : VariableId}
  {r : ReferenceId} {name : String}

/-- The references that are written in the text and those that are free are bound to what they
mean. -/
def Faithful (g : ScopeGraph) : Prop :=
  ∀ r, g.LiveReference r → (g.referenceAt r).isVirtual = false ∨ (g.referenceAt r).resolved = none →
    g.Lexical r

/-! Names that a scope may declare anew. -/

/-- No scope above declares the name, unless the scope does so itself. -/
def Uncaptured (g : ScopeGraph) (s : ScopeId) (name : String) : Prop :=
  g.declared? s name = none → g.findVariable s name = none

theorem resolved_bindAll {rs : List ReferenceId} (hrs : ∀ r ∈ rs, r < g.references.size)
    (q : ReferenceId) :
    ((rs.foldl (fun g r => (g.link r v).dropThrough (g.ancestors s) r) g).referenceAt q).resolved =
      if q ∈ rs then some v else (g.referenceAt q).resolved := by
  induction rs generalizing g with
  | nil => simp
  | cons r rs ih =>
    rw [List.forall_mem_cons] at hrs
    have hsize : ((g.link r v).dropThrough (g.ancestors s) r).references.size = g.references.size :=
      congrArg Prod.fst (view_bindThrough placeView)
    rw [List.foldl_cons, ih (by rw [hsize]; exact hrs.2),
      resolved_congr (view_dropThrough bindingView), resolved_link hrs.1]
    by_cases hq : q ∈ rs <;> by_cases hqr : q = r <;> simp [hq, hqr]

/-- Just the free references of the name that pass through the scope are bound. -/
theorem resolved_resolveThrough (h : ∀ r ∈ (g.scopeAt s).through, r < g.references.size)
    (q : ReferenceId) : ((g.resolveThrough s name v).referenceAt q).resolved =
      if q ∈ (g.scopeAt s).through ∧ (g.referenceAt q).name = name ∧ (g.referenceAt q).resolved = none then some v
      else (g.referenceAt q).resolved := by
  unfold resolveThrough
  rw [resolved_bindAll fun r hr => h r (List.mem_filter.mp hr).1]
  simp only [List.mem_filter, Bool.and_eq_true, beq_iff_eq, Option.isNone_iff_eq_none]

theorem findVariable_congr (htree : g'.treeView = g.treeView)
    (hname : ∀ t, g'.declared? t name = g.declared? t name)
    (s : ScopeId) : g'.findVariable s name = g.findVariable s name := by
  simp only [findVariable, ancestors_congr_tree htree, hname]

/-- A variable that `s` declares, where the name meant nothing in `s`, is what the name means now in
the scopes below in which it meant nothing. -/
theorem WellFormed.findVariable_introduce (h : g.WellFormed fun _ => True)
    (h' : g'.WellFormed fun _ => True)
    (htree : g'.treeView = g.treeView) (hfree : g.findVariable s name = none) (hs : g.LiveScope s)
    (hdecl : ∀ t n, g'.declared? t n = if t = s ∧ n = name then some v else g.declared? t n)
    (ht : g.LiveScope t) (n : String) :
    (n = name ∧ g.Below t s ∧ g.findVariable t n = none → g'.findVariable t n = some v) ∧
      (¬ (n = name ∧ g.Below t s ∧ g.findVariable t n = none) → g'.findVariable t n = g.findVariable t n) := by
  have ht' : g'.LiveScope t := ht.of_tree htree
  have hbelow := below_congr_tree htree
  have hnone := (h.findVariable_eq_none_iff hs).mp hfree
  constructor
  · rintro ⟨rfl, hts, hmeans⟩
    rw [h.findVariable_eq_none_iff ht] at hmeans
    rw [h'.findVariable_eq_some_iff ht', hbelow]
    refine ⟨s, hts, by simp [hdecl], fun u hu _ hne => ?_⟩
    simp [hdecl, hne, hmeans u hu]
  · intro hnot
    by_cases hn : n = name
    · subst hn
      cases hmeans : g.findVariable t n with
      | none =>
        have hts : ¬ g.Below t s := fun hts => hnot ⟨rfl, hts, hmeans⟩
        rw [h.findVariable_eq_none_iff ht] at hmeans
        rw [h'.findVariable_eq_none_iff ht', hbelow]
        intro u hu
        have hne : u ≠ s := fun he => hts (he ▸ hu)
        simp [hdecl, hne, hmeans u hu]
      | some w =>
        obtain ⟨o, hto, ho, hbefore⟩ := (h.findVariable_eq_some_iff ht).mp hmeans
        rw [h'.findVariable_eq_some_iff ht', hbelow]
        -- Neither the scope of the old meaning nor a scope before it is `s`, from where the name means nothing.
        have hdiffers : ∀ u, g.Below u o → u ≠ s := by
          rintro u huo rfl
          simp [hnone o huo] at ho
        refine ⟨o, hto, by simp [hdecl, hdiffers o .refl, ho], fun u hu huo hne => ?_⟩
        simp [hdecl, hdiffers u huo, hbefore u hu huo hne]
    · exact findVariable_congr htree (fun u => by simp [hdecl, hn]) t

/-- Declaring a name that meant nothing and binding what was free of it. -/
theorem Faithful.introduce {g1 : ScopeGraph} (hf : g.Faithful) (h : g.WellFormed fun _ => True)
    (h' : (g1.resolveThrough s name v).WellFormed fun _ => True) (htree : g1.treeView = g.treeView)
    (hrefs : g1.references = g.references) (hthrough : g1.throughView = g.throughView)
    (hdecl : ∀ t n, g1.declared? t n = if t = s ∧ n = name then some v else g.declared? t n)
    (hs : g.LiveScope s) (hfree : g.findVariable s name = none) :
    (g1.resolveThrough s name v).Faithful := by
  have hat : ∀ q, g1.referenceAt q = g.referenceAt q :=
    fun q => by rw [referenceAt, referenceAt, hrefs]
  have hlists : (g1.scopeAt s).through = (g.scopeAt s).through := through_congr hthrough s
  have hresolved : ∀ q, ((g1.resolveThrough s name v).referenceAt q).resolved =
      if q ∈ (g.scopeAt s).through ∧ (g.referenceAt q).name = name ∧ (g.referenceAt q).resolved = none then some v
      else (g.referenceAt q).resolved := by
    intro q
    have hbound : ∀ r ∈ (g1.scopeAt s).through, r < g1.references.size := by
      rw [hlists, hrefs]
      exact fun r hr => (h.through.live hs hr).1
    rw [resolved_resolveThrough hbound, hlists, hat]
  have hext : Extends (fun _ => True) g1 (g1.resolveThrough s name v) := .resolveThrough ..
  have hplace : (g1.resolveThrough s name v).placeView = g1.placeView :=
    view_resolveThrough placeView
  intro r hr hkind
  have hr1 : g1.LiveReference r := by
    rw [← liveReference_congr hplace]
    exact hr
  have hlive : g.LiveReference r := by
    rw [LiveReference, hrefs, hat] at hr1
    exact hr1
  have hsame := hext.reference hr1.1
  rw [hat] at hsame
  have hold : (g.referenceAt r).isVirtual = false ∨ (g.referenceAt r).resolved = none := by
    refine hkind.imp (hsame.isVirtual.symm.trans) fun hnone => ?_
    cases hres : (g.referenceAt r).resolved with
    | none => rfl
    | some w => rw [hsame.resolved hres] at hnone; cases hnone
  have hlex := hf r hlive hold
  have hsource : ((g1.resolveThrough s name v).referenceAt r).source =
      (g.referenceAt r).source := by
    rw [source_congr hplace, hat]
  have hwell := h.findVariable_introduce h' ((view_resolveThrough treeView).trans htree) hfree hs
    (fun t n => (declared_congr (view_resolveThrough declView) t n).trans (hdecl t n))
    (h.places.source_live hlive) (g.referenceAt r).name
  -- A free reference passes through `s` just when it is made below.
  have hpass : (g.referenceAt r).resolved = none →
      (r ∈ (g.scopeAt s).through ↔ g.Below (g.referenceAt r).source s) := by
    intro hnone
    rw [(WellFormedBut.flow h hlive id).mem_through hs, PassesThrough, owner?, hnone]
    simp
  rw [Lexical, meaning?] at hlex ⊢
  rw [hsource, hsame.name, hresolved]
  by_cases hcase : (g.referenceAt r).name = name ∧ g.Below (g.referenceAt r).source s ∧
      g.findVariable (g.referenceAt r).source (g.referenceAt r).name = none
  · have hnone := hlex.trans hcase.2.2
    rw [if_pos ⟨(hpass hnone).mpr hcase.2.1, hcase.1, hnone⟩, hwell.1 hcase]
  · have hskip :
        ¬ (r ∈ (g.scopeAt s).through ∧ (g.referenceAt r).name = name ∧ (g.referenceAt r).resolved = none) := by
      rintro ⟨hmem, hname, hnone⟩
      exact hcase ⟨hname, (hpass hnone).mp hmem, hlex.symm.trans hnone⟩
    rw [if_neg hskip, hwell.2 hcase, hlex]

/-! The edits. -/

section

variable (hf : g.Faithful) (h : g.WellFormed fun _ => True) (hs : g.LiveScope s)

include hf h hs

/-- No free reference of a name passes through a scope that declares it. -/
theorem Faithful.resolveThrough_declared (hv : g.declared? s name = some v) :
    g.resolveThrough s name v = g := by
  have hpend : (g.scopeAt s).through.filter (fun r =>
      (g.referenceAt r).name == name && (g.referenceAt r).resolved.isNone) = [] := by
    rw [List.filter_eq_nil_iff]
    intro r hr hfree
    rw [Bool.and_eq_true, beq_iff_eq, Option.isNone_iff_eq_none] at hfree
    have hlive := h.through.live hs hr
    have hlex : g.Lexical r := hf r hlive (.inr hfree.2)
    have hnone := ((h.mem_through_iff hlive hlex hs).mp hr)
    rw [hfree.1] at hnone
    simp [hnone.2 s hnone.1 .refl] at hv
  unfold resolveThrough
  rw [hpend]
  rfl

theorem Faithful.declareImplicit (hname : g.Uncaptured s name) :
    (g.declareImplicit s name).2.Faithful := by
  have h' : (g.declareImplicit s name).2.WellFormed fun _ => True := h.declareImplicit hs
  unfold ScopeGraph.declareImplicit ensureVariable at h' ⊢
  cases hdecl : g.declared? s name with
  | some v =>
    dsimp only
    rw [hf.resolveThrough_declared h hs hdecl]
    exact hf
  | none =>
    rw [hdecl] at h'
    exact hf.introduce h h' (view_createVariable treeView) rfl (view_createVariable throughView)
      (declared_createVariable hs) hs (hname hdecl)

theorem Faithful.declareReactive {a : Arena} {identifier : NodeId}
    (hname : ∀ name, a.identifierName? identifier = some name → g.Uncaptured s name) :
    (g.declareReactive a s identifier).2.Faithful := by
  have h' : (g.declareReactive a s identifier).2.WellFormed fun _ => True := h.declareReactive hs
  rcases declareReactive_cases g a s identifier with heq | ⟨name, hident, hnew, heq⟩
  · rw [heq]
    exact hf
  · have hensure : g.ensureVariable s name = g.createVariable s name := by
      rw [ensureVariable, hnew]
    rw [heq] at h' ⊢
    have hfree := hname name hident hnew
    rcases declare_cases g s name identifier .variable with hdeclare | hdeclare
    -- Occurrences are no part of what the graph says about names.
    all_goals
      rw [hdeclare, hensure] at h' ⊢
      exact hf.introduce h h' (view_createVariable treeView) rfl (view_createVariable throughView)
        (declared_createVariable hs) hs hfree

end

section Synthesize

variable {identifier : NodeId} {access : Access}

theorem declared_synthesizeReference (t : ScopeId) (n : String) :
    (g.synthesizeReference identifier v s access).2.declared? t n = g.declared? t n := by
  refine declared_congr ?_ t n
  unfold synthesizeReference
  dsimp only
  rw [view_addThroughs declView, declView_modifyVariable fun _ => by simp,
    view_pushReference declView]

theorem references_synthesizeReference :
    (g.synthesizeReference identifier v s access).2.references =
    g.references.push ⟨identifier, (g.variableAt v).name, s, some v, access, false, true,
      false⟩ := by
  unfold synthesizeReference
  dsimp only
  exact view_foldl ScopeGraph.references (by exact fun _ _ => rfl) _ _

/-- References that are made bound change nothing for the others, from wherever they are made. -/
theorem Faithful.synthesizeReference (hf : g.Faithful) :
    (g.synthesizeReference identifier v s access).2.Faithful := by
  have htree : (g.synthesizeReference identifier v s access).2.treeView = g.treeView :=
    view_synthesizeReference treeView
  have hat : ∀ q, (g.synthesizeReference identifier v s access).2.referenceAt q =
      if q = g.references.size then ⟨identifier, (g.variableAt v).name, s, some v, access, false, true, false⟩
      else g.referenceAt q := by
    intro q
    rw [referenceAt, references_synthesizeReference]
    exact getD_push ..
  intro r hr hkind
  rw [LiveReference, references_synthesizeReference, Array.size_push] at hr
  rw [Lexical, meaning?, findVariable_congr htree fun t => declared_synthesizeReference t _]
  by_cases hnew : r = g.references.size
  · simp [hat, hnew] at hkind
  · rw [hat, if_neg hnew] at hr hkind ⊢
    exact hf r ⟨Nat.lt_of_le_of_ne (Nat.le_of_lt_succ hr.1) hnew, hr.2⟩ hkind

end Synthesize

end Loom.ScopeGraph
