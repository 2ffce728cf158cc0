import Loom.Proofs.Dialect
import Loom.Proofs.Scope.Faithful

/-!
The dialect only adds, and it keeps references bound to what they mean.

That it adds can be read off its edits, on any graph. That no name it declares captures a reference
bound elsewhere rests on where it declares: only the global scope is above the top scope, and a name
that is free in the global scope is not declared there.
-/

open List

namespace Loom

open Dialect ScopeStep

variable {β : Type} {f : ScopeGraph → β → List ScopeStep} {bs : List β} {r : ReferenceId}
  {storeName name : String} {home : ScopeId → Prop} {a : Arena} {g g' g0 : ScopeGraph} {s : ScopeId}

namespace ScopeStep

variable {steps : List ScopeStep} {step : ScopeStep}

/-- The edits that only add: declarations in the scopes of `home`, and references that are made
bound. -/
def Adding (home : ScopeId → Prop) : ScopeStep → Prop
  | .declareImplicit s _ => home s
  | .declareReactive s _ => home s
  | .synthesizeReference _ _ _ access => access = .read ∨ access = .write
  | _ => False

theorem Adding.extends (h : step.Adding home) (g : ScopeGraph) :
    g.Extends home (step.perform a g).2 := by
  cases step with
  | declareImplicit s name => exact .declareImplicit name h
  | declareReactive s identifier => exact .declareReactive a identifier h
  | synthesizeReference identifier v s access => exact .synthesizeReference identifier v s h g
  | _ => exact False.elim h

theorem run_extends (h : ∀ step ∈ steps, step.Adding home) (g : ScopeGraph) :
    g.Extends home (run a steps g) :=
  .foldl steps (fun g step hstep => (h step hstep).extends g) g

/-- Where nothing is declared, references are only made bound. -/
theorem faithful_run (h : ∀ step ∈ steps, step.Adding fun _ => False) (hf : g.Faithful) :
    (run a steps g).Faithful := by
  induction steps generalizing g with
  | nil => exact hf
  | cons step steps ih =>
    rw [forall_mem_cons] at h
    refine ih h.2 ?_
    cases step with
    | synthesizeReference identifier v s access => exact hf.synthesizeReference
    | _ => exact False.elim h.1

theorem foldEdits_adding
    (hf : ∀ g', g.Extends home g' → ∀ b ∈ bs, ∀ step ∈ f g' b, step.Adding home)
    (hg : g.Extends home g') : ∀ step ∈ foldEdits a f bs g', step.Adding home := by
  induction bs generalizing g' with
  | nil => simp [foldEdits]
  | cons b bs ih =>
    have hfirst := hf g' hg b mem_cons_self
    rw [foldEdits, forall_mem_append]
    exact ⟨hfirst, ih (fun g' hg' b hb => hf g' hg' b (mem_cons_of_mem _ hb))
      (hg.trans (run_extends hfirst g'))⟩

end ScopeStep

namespace ScopeGraph

variable {t : ScopeId}

/-- Where there are scopes, the global scope is one of them, and every other one is the top scope or
below it. -/
def UnderTop (g : ScopeGraph) : Prop :=
  ∀ s, g.LiveScope s → g.LiveScope globalScope ∧ (s ≠ globalScope → g.Below s g.topScope)

/-- What is filed under an identifier and written in the text is a reference of the identifier's
name. -/
def NamedBy (g : ScopeGraph) (a : Arena) : Prop :=
  ∀ i name, a.identifierName? i = some name → ∀ r ∈ g.referencesTo i,
    (g.referenceAt r).isVirtual = false → g.LiveReference r ∧ (g.referenceAt r).name = name

theorem Extends.underTop (h : g.Extends home g') (hu : g.UnderTop) : g'.UnderTop := by
  unfold UnderTop
  rw [liveScope_congr h.treeView, below_congr_tree h.treeView, h.topScope]
  exact hu

theorem Extends.namedBy (h : g.Extends home g') (hn : g.NamedBy a) : g'.NamedBy a := by
  intro i name hname r hr hwritten
  obtain ⟨hmem, hlive⟩ := mem_filter.mp hr
  obtain ⟨more, hget, hmore⟩ := h.filed i
  rw [hget, mem_append] at hmem
  rcases hmem with hold | hnew
  · by_cases hlt : r < g.references.size
    · have hsame := h.reference hlt
      rw [hsame.removed] at hlive
      obtain ⟨hr, hrname⟩ := hn i name hname r (mem_filter.mpr ⟨hold, hlive⟩) (hsame.isVirtual ▸ hwritten)
      exact ⟨⟨hlt.trans_le h.references_size, hsame.removed.trans hr.2⟩, hsame.name.trans hrname⟩
    · -- A number that stands for no reference reads as a free one, which the old graph has not.
      have hdefault := referenceAt_of_size_le (not_lt.mp hlt)
      refine absurd (hn i name hname r (mem_filter.mpr ⟨hold, ?_⟩) ?_).1.1 hlt <;> rw [hdefault] <;> rfl
  · have hmade := h.newReference (hmore r hnew).1 (hmore r hnew).2
    rw [hmade.isVirtual] at hwritten
    cases hwritten

/-! The scopes above the top scope. -/

theorem topScope_cases (h : g.TreeLinks) (hglobal : g.LiveScope globalScope) :
    g.topScope = globalScope ∨ g.Up g.topScope globalScope := by
  unfold topScope
  cases hmodule : g.moduleScope? with
  | none => exact .inl rfl
  | some s =>
    unfold moduleScope? at hmodule
    split at hmodule
    · cases hmodule
    · exact .inr ((h.mem_children hglobal).mp (mem_of_find?_eq_some hmodule)).2

namespace UnderTop

variable (hu : g.UnderTop) (h : g.TreeLinks)

include hu h

theorem below_global (hs : g.LiveScope s) : g.Below s globalScope := by
  obtain ⟨hglobal, hbelow⟩ := hu s hs
  by_cases hsg : s = globalScope
  · rw [hsg]
    exact .refl
  · rcases topScope_cases h hglobal with htop | htop
    · exact htop ▸ hbelow hsg
    · exact (hbelow hsg).tail htop

theorem above_global (hglobal : g.LiveScope globalScope) (ht : g.Below globalScope t) :
    t = globalScope :=
  (h.below_antisymm hglobal ht (hu.below_global h (h.live_of_below hglobal ht))).symm

theorem above_top (hglobal : g.LiveScope globalScope) (ht : g.Below g.topScope t) :
    t = g.topScope ∨ t = globalScope := by
  rcases topScope_cases h hglobal with htop | htop
  · rw [htop] at ht ⊢
    exact .inl (hu.above_global h hglobal ht)
  · rcases Relation.ReflTransGen.cases_head ht with heq | ⟨u, hup, hut⟩
    · exact .inl heq.symm
    · obtain rfl := upper_unique g htop hup
      exact .inr (hu.above_global h hglobal hut)

end UnderTop

/-- What passes through the global scope is what is free. -/
theorem UnderTop.mem_through_global (hu : g.UnderTop) (h : g.WellFormed fun _ => True)
    (hglobal : g.LiveScope globalScope) :
    r ∈ (g.scopeAt globalScope).through ↔
      g.LiveReference r ∧ (g.referenceAt r).resolved = none := by
  constructor
  · intro hr
    have hlive := h.through.live hglobal hr
    have hpass := (((WellFormedBut.flow h hlive id).mem_through hglobal).mp hr).2
    refine ⟨hlive, ?_⟩
    cases hres : (g.referenceAt r).resolved with
    | none => rfl
    | some v =>
      -- The variable would have to be in a scope above the global one.
      obtain ⟨habove, hne⟩ := hpass.2 (g.variableAt v).scope (by rw [owner?, hres, Option.map_some])
      exact absurd (hu.above_global h.tree hglobal habove).symm hne
  · rintro ⟨hlive, hfree⟩
    refine ((WellFormedBut.flow h hlive id).mem_through hglobal).mpr ⟨trivial, ?_, ?_⟩
    · exact hu.below_global h.tree (h.places.source_live hlive)
    · simp [owner?, hfree]

/-- A graph on the way of the dialect from `g0`. -/
structure Steady (home : ScopeId → Prop) (g0 g : ScopeGraph) : Prop where
  wellFormed : g.WellFormed fun _ => True
  faithful : g.Faithful
  underTop : g.UnderTop
  global : g.LiveScope globalScope
  extends_ : g0.Extends home g

namespace Steady

section

variable (h : Steady home g0 g)

include h

theorem step (hext : g.Extends home g') (hw : g'.WellFormed fun _ => True) (hf : g'.Faithful) :
    Steady home g0 g' where
  wellFormed := hw
  faithful := hf
  underTop := hext.underTop h.underTop
  global := by
    rw [liveScope_congr hext.treeView]
    exact h.global
  extends_ := h.extends_.trans hext

theorem top_live : g.LiveScope g0.topScope := by
  rw [← h.extends_.topScope]
  exact liveScope_topScope h.wellFormed.tree h.global

/-- The global scope does not declare what is free in it. -/
theorem declared_of_through (hname : name ∈ g.throughNames globalScope) :
    g.declared? globalScope name = none := by
  obtain ⟨r, hr, rfl⟩ := mem_map.mp hname
  obtain ⟨hlive, hfree⟩ := (h.underTop.mem_through_global h.wellFormed h.global).mp hr
  have hlex := h.faithful r hlive (.inr hfree)
  obtain ⟨hbelow, hnone⟩ := (h.wellFormed.mem_through_iff hlive hlex h.global).mp hr
  exact hnone globalScope hbelow .refl

theorem uncaptured_global (name : String) : g.Uncaptured globalScope name := by
  intro hnone
  rw [h.wellFormed.findVariable_eq_none_iff h.global]
  intro u hu
  rw [h.underTop.above_global h.wellFormed.tree h.global hu]
  exact hnone

theorem uncaptured_top (hname : g0.topScope = globalScope ∨ g.declared? globalScope name = none) :
    g.Uncaptured g0.topScope name := by
  intro hnone
  rw [h.wellFormed.findVariable_eq_none_iff h.top_live]
  intro u hu
  have habove := h.underTop.above_top h.wellFormed.tree h.global (h.extends_.topScope ▸ hu)
  rw [h.extends_.topScope] at habove
  rcases habove with rfl | rfl
  · exact hnone
  · rcases hname with htop | hglobal
    · rw [← htop]
      exact hnone
    · exact hglobal

theorem declareImplicit (hhome : home s) (hs : g.LiveScope s) (hname : g.Uncaptured s name) :
    Steady home g0 (g.declareImplicit s name).2 :=
  h.step (.declareImplicit name hhome) (h.wellFormed.declareImplicit hs)
    (h.faithful.declareImplicit h.wellFormed hs hname)

end

theorem foldEdits (hf : ∀ g, Steady home g0 g → ∀ b ∈ bs, Steady home g0 (run a (f g b) g))
    (h : Steady home g0 g) : Steady home g0 (run a (foldEdits a f bs g) g) := by
  induction bs generalizing g with
  | nil => exact h
  | cons b bs ih =>
    rw [foldEdits, run_append]
    exact ih (fun g hg b hb => hf g hg b (mem_cons_of_mem _ hb)) (hf g h b mem_cons_self)

end Steady

end ScopeGraph

namespace Dialect

open ScopeStep ScopeGraph

variable {top : ScopeId}

/-! What each part adds. -/

theorem declareGlobalEdits_adding (hhome : home s) (name : String) :
    ∀ step ∈ declareGlobalEdits s g name, step.Adding home := by
  unfold declareGlobalEdits
  split <;> simp [Adding, hhome]

theorem resolveStoreEdits_adding (hhome : home g.topScope) (storeName : String) :
    ∀ step ∈ g.resolveStoreEdits storeName, step.Adding home := by
  unfold resolveStoreEdits
  split <;> simp [Adding, hhome]

theorem declareTargetEdits_adding (hhome : home top) (identifier : NodeId) :
    ∀ step ∈ declareTargetEdits top g identifier, step.Adding home := by
  unfold declareTargetEdits
  split
  · split <;> simp [Adding, hhome]
  · simp

theorem markWritableEdits_adding (target : NodeId × ScopeId) :
    ∀ step ∈ markWritableEdits a g target, step.Adding home := by
  unfold markWritableEdits
  split <;> simp [Adding]

theorem markSnippetEdits_adding (child : NodeId) :
    ∀ step ∈ markSnippetEdits a g child, step.Adding home := by
  unfold markSnippetEdits
  split
  · split
    · split <;> simp [Adding]
    · simp
  · simp

theorem globalEdits_adding (runesMode : Bool) (g : ScopeGraph) :
    ∀ step ∈ globalEdits a runesMode g, step.Adding fun s => s = globalScope ∨ s = g.topScope := by
  unfold globalEdits
  split
  · exact foldEdits_adding (fun _ _ name _ => declareGlobalEdits_adding (.inl rfl) name) (.refl g)
  · exact foldEdits_adding (fun _ _ name _ => declareGlobalEdits_adding (.inr rfl) name) (.refl g)

theorem storeEdits_adding (candidates : List String) (g : ScopeGraph) :
    ∀ step ∈ foldEdits a resolveStoreEdits candidates g, step.Adding (· = g.topScope) :=
  foldEdits_adding (fun _ hg name _ => resolveStoreEdits_adding (by exact hg.topScope) name)
    (.refl g)

theorem reactiveEdits_adding (program : NodeId) (runesMode : Bool) (top : ScopeId)
    (g : ScopeGraph) : ∀ step ∈ reactiveEdits a program runesMode top g, step.Adding (· = top) := by
  unfold reactiveEdits
  split
  · simp
  · exact foldEdits_adding (fun _ _ i _ => declareTargetEdits_adding (by rfl) i) (.refl g)

theorem outsideEdits_adding (program : NodeId) (runesMode : Bool) (top : ScopeId) (g : ScopeGraph) :
    ∀ step ∈ outsideEdits a program runesMode top g, step.Adding home := by
  unfold outsideEdits
  rw [forall_mem_append]
  exact ⟨foldEdits_adding (fun _ _ target _ => markWritableEdits_adding target) (.refl g),
    foldEdits_adding (fun _ _ child _ => markSnippetEdits_adding child) (.refl _)⟩

/-- Whatever the graph, the dialect only adds to it. -/
theorem extends_edits (a : Arena) (program : NodeId) (runesMode : Bool) (g : ScopeGraph) :
    g.Extends (fun s => s = globalScope ∨ s = g.topScope)
      (run a (edits a program runesMode g) g) := by
  have hglobals : g.Extends (fun s => s = globalScope ∨ s = g.topScope)
      (run a (globalEdits a runesMode g) g) :=
    run_extends (globalEdits_adding runesMode g) g
  unfold edits nameEdits
  simp only [run_append]
  generalize run a (globalEdits a runesMode g) g = g1 at hglobals ⊢
  have hstores : g1.Extends (fun s => s = globalScope ∨ s = g.topScope)
      (run a (foldEdits a resolveStoreEdits g1.storeCandidates g1) g1) :=
    (run_extends (storeEdits_adding g1.storeCandidates g1) g1).mono
      fun s hs => .inr (hs.trans hglobals.topScope)
  generalize run a (foldEdits a resolveStoreEdits g1.storeCandidates g1) g1 = g2 at hstores ⊢
  have hreactive : g2.Extends (fun s => s = globalScope ∨ s = g.topScope)
      (run a (reactiveEdits a program runesMode g.topScope g2) g2) :=
    (run_extends (reactiveEdits_adding program runesMode g.topScope g2) g2).mono fun s hs => .inr hs
  refine ((hglobals.trans hstores).trans hreactive).trans ?_
  exact run_extends (outsideEdits_adding program runesMode g.topScope _) _

/-! No name is captured. -/

theorem steady_declareGlobal (h : Steady home g0 g) (hhome : home s)
    (hs : g.LiveScope s) (hname : g.declared? globalScope name = none → g.Uncaptured s name) :
    Steady home g0 (run a (declareGlobalEdits s g name) g) := by
  unfold declareGlobalEdits
  split
  · rename_i hfree
    exact h.declareImplicit hhome hs (hname (h.declared_of_through (contains_iff_mem.mp hfree)))
  · exact h

theorem steady_globals (h : Steady (fun s => s = globalScope ∨ s = g.topScope) g g)
    (runesMode : Bool) :
    Steady (fun s => s = globalScope ∨ s = g.topScope) g (run a (globalEdits a runesMode g) g) := by
  unfold globalEdits
  split
  · refine Steady.foldEdits (fun g' h' name _ => ?_) h
    exact steady_declareGlobal h' (.inl rfl) h'.global fun _ => h'.uncaptured_global name
  · refine Steady.foldEdits (fun g' h' name _ => ?_) h
    exact steady_declareGlobal h' (.inr rfl) h'.top_live fun hnone => h'.uncaptured_top (.inr hnone)

theorem mem_dedupSorted {x : String} {xs : List String} : x ∈ dedupSorted xs ↔ x ∈ xs := by
  fun_induction dedupSorted xs with
  | case1 y rest ih =>
    rw [ih]
    simp
  | case2 y z rest hne ih => rw [mem_cons, ih, mem_cons (l := z :: rest)]
  | case3 xs => rfl

theorem mem_throughNames_of_candidate (h : storeName ∈ g.storeCandidates) :
    storeName ∈ g.throughNames globalScope :=
  (mem_filter.mp (mem_mergeSort.mp (mem_dedupSorted.mp h))).1

/-- A name that the global scope did not declare, it declares only if it is the top scope. -/
theorem declared_global_of_extends (h : Steady (· = g0.topScope) g0 g)
    (h0 : g0.DeclarationLinks) (hnone : g0.declared? globalScope name = none) :
    g0.topScope = globalScope ∨ g.declared? globalScope name = none := by
  cases hv : g.declared? globalScope name with
  | none => exact .inr rfl
  | some v =>
    obtain ⟨hlive, hscope, hname⟩ := h.wellFormed.declarations.declared h.global hv
    by_cases hlt : v < g0.vars.size
    · have hsame := h.extends_.variable_ hlt
      have hself := h0.declared_self ⟨hlt, hsame.removed.symm.trans hlive.2⟩
      rw [← hsame.scope, ← hsame.name, hscope, hname, hnone] at hself
      cases hself
    · have hnew := (h.extends_.newVariable (not_lt.mp hlt) hlive.1).1
      exact .inl (hnew.symm.trans hscope)

theorem steady_resolveStore (h : Steady (· = g0.topScope) g0 g)
    (hname : g0.topScope = globalScope ∨ g.declared? globalScope storeName = none) :
    Steady (· = g0.topScope) g0 (run a (g.resolveStoreEdits storeName) g) := by
  have htop := h.extends_.topScope
  refine h.step (run_extends (resolveStoreEdits_adding (by exact htop) storeName) g) ?_ ?_
  · rw [run_resolveStoreEdits]
    simpa only [true_or] using (h.wellFormed.resolveStore storeName h.global).1
  · unfold resolveStoreEdits
    split
    · exact h.faithful
    · rw [run_cons, htop]
      refine faithful_run (by simp [Adding]) ?_
      exact h.faithful.declareImplicit h.wellFormed h.top_live (h.uncaptured_top hname)

theorem steady_stores (h : Steady (· = g.topScope) g g) :
    Steady (· = g.topScope) g (run a (foldEdits a resolveStoreEdits g.storeCandidates g) g) := by
  refine Steady.foldEdits (fun g' h' name hmem => steady_resolveStore h' ?_) h
  exact declared_global_of_extends h' h.wellFormed.declarations
    (h.declared_of_through (mem_throughNames_of_candidate hmem))

/-- A name that is free somewhere is declared neither by the global scope nor by a scope that the
reference passes. -/
theorem uncaptured_target {identifier : NodeId} (h : Steady home g0 g) (hnamed : g.NamedBy a)
    (hr : writtenReference? g identifier = some r) (hfree : (g.referenceAt r).resolved = none)
    (hname : a.identifierName? identifier = some name) : g.Uncaptured g0.topScope name := by
  have hwritten : (g.referenceAt r).isVirtual = false := by simpa using find?_some hr
  obtain ⟨hlive, rfl⟩ := hnamed identifier name hname r (mem_of_find?_eq_some hr) hwritten
  have hlex := h.faithful r hlive (.inl hwritten)
  have hsource := h.wellFormed.places.source_live hlive
  rw [Lexical, hfree] at hlex
  have hnone := (h.wellFormed.findVariable_eq_none_iff hsource).mp hlex.symm
  exact h.uncaptured_top (.inr (hnone _ (h.underTop.below_global h.wellFormed.tree hsource)))

theorem steady_reactive (program : NodeId) (runesMode : Bool)
    (h : Steady (fun s => s = globalScope ∨ s = g0.topScope) g0 g)
    (hnamed : runesMode = false → g0.NamedBy a) :
    Steady (fun s => s = globalScope ∨ s = g0.topScope) g0
      (run a (reactiveEdits a program runesMode g0.topScope g) g) := by
  unfold reactiveEdits
  split
  · exact h
  · rename_i hmode
    refine Steady.foldEdits (fun g' h' i _ => ?_) h
    have hnamed' := h'.extends_.namedBy (hnamed (Bool.not_eq_true _ ▸ hmode))
    unfold declareTargetEdits
    split
    · rename_i r hr
      split
      · exact h'
      · rename_i hfree
        refine h'.step (.declareReactive a i (.inr rfl)) (h'.wellFormed.declareReactive h'.top_live) ?_
        refine h'.faithful.declareReactive h'.wellFormed h'.top_live fun name hname => ?_
        exact uncaptured_target h' hnamed' hr (by simpa using hfree) hname
    · exact h'

/-- Without a global scope there are no references, and those that are made up do not count. -/
theorem faithful_of_no_scopes {g' : ScopeGraph} (h : g.WellFormed fun _ => True) (hu : g.UnderTop)
    (hglobal : ¬ g.LiveScope globalScope) (hext : g.Extends home g') : g'.Faithful := by
  intro r hr hkind
  by_cases hlt : r < g.references.size
  · have hlive : g.LiveReference r := ⟨hlt, (hext.reference hlt).removed.symm.trans hr.2⟩
    exact absurd (hu _ (h.places.source_live hlive)).1 hglobal
  · have hmade := hext.newReference (not_lt.mp hlt) hr.1
    have hbound := hmade.bound
    rcases hkind with hkind | hkind
    · simp [hmade.isVirtual] at hkind
    · simp [hkind] at hbound

theorem faithful_edits (program : NodeId) (runesMode : Bool) (h : g.WellFormed fun _ => True)
    (hu : g.UnderTop) (hf : g.Faithful) (hnamed : runesMode = false → g.NamedBy a) :
    (run a (edits a program runesMode g) g).Faithful := by
  by_cases hglobal : g.LiveScope globalScope
  · have hstart : Steady (fun s => s = globalScope ∨ s = g.topScope) g g :=
      ⟨h, hf, hu, hglobal, .refl g⟩
    have hglobals := steady_globals (a := a) hstart runesMode
    unfold edits nameEdits
    simp only [run_append]
    generalize run a (globalEdits a runesMode g) g = g1 at hglobals ⊢
    have hstores := steady_stores (a := a) { hglobals with extends_ := .refl g1 }
    generalize run a (foldEdits a resolveStoreEdits g1.storeCandidates g1) g1 = g2 at hstores ⊢
    have hnames : Steady (fun s => s = globalScope ∨ s = g.topScope) g g2 :=
      { hstores with
        extends_ := hglobals.extends_.trans
          (hstores.extends_.mono fun s hs => .inr (hs.trans hglobals.extends_.topScope)) }
    have hreactive := steady_reactive program runesMode hnames hnamed
    exact faithful_run (outsideEdits_adding program runesMode g.topScope _) hreactive.faithful
  · exact faithful_of_no_scopes h hu hglobal (extends_edits a program runesMode g)

end Dialect

namespace ScopeGraph

/-! Checks on a graph that is there. -/

theorem UnderTop.of_ancestors (h : g.TreeLinks) (hglobal : g.LiveScope globalScope)
    (hall : ∀ s < g.scopes.size, (g.scopeAt s).removed = false → s ≠ globalScope →
      g.topScope ∈ g.ancestors s) :
    g.UnderTop :=
  fun s hs => ⟨hglobal, fun hne => (h.mem_ancestors hs).mp (hall s hs.1 hs.2 hne)⟩

theorem Faithful.of_all (h : ∀ r < g.references.size, (g.referenceAt r).removed = false →
    (g.referenceAt r).isVirtual = false ∨ (g.referenceAt r).resolved = none → g.Lexical r) :
    g.Faithful :=
  fun r hr => h r hr.1 hr.2

theorem NamedBy.of_entries (h : ∀ e ∈ g.identifierReferences, ∀ r ∈ e.2, r < g.references.size ∧
    a.identifierName? e.1 = some (g.referenceAt r).name) : g.NamedBy a := by
  intro i name hname r hr _
  obtain ⟨hmem, hlive⟩ := mem_filter.mp hr
  obtain ⟨hlt, hsame⟩ := h _ (NodeIndex.entry_of_mem hmem) r hmem
  exact ⟨⟨hlt, by simpa using hlive⟩, Option.some.inj (hsame.symm.trans hname)⟩

end ScopeGraph

open ScopeStep ScopeGraph

/-- The dialect only adds: scopes, declarations and references stay, free references may be bound,
and what is new are variables of the top or the global scope and made-up references that are bound.
And where written and free references are bound to what they mean, they are so afterwards. -/
theorem dialect_adds_faithfully (a : Arena) (program : NodeId) (runesMode : Bool) (g : ScopeGraph) :
    g.Extends (fun s => s = globalScope ∨ s = g.topScope) (apply a program runesMode g).2 ∧
      (g.WellFormed (fun _ => True) → g.UnderTop → g.Faithful → (runesMode = false → g.NamedBy a) →
        (apply a program runesMode g).2.Faithful) := by
  rw [← run_edits]
  exact ⟨extends_edits a program runesMode g, fun h hu hf hnamed =>
    faithful_edits program runesMode h hu hf hnamed⟩

/-- The statement `$: x = x`, and two uses of a store. -/
def reactiveArena : Arena :=
  ⟨([.identifier "$", .identifier "x", .identifier "x", .operatorExpression .assignment "=" 1 2,
    .expressionStatement 3,
    .labeledStatement 0 4, .identifier "$foo", .identifier "$foo", .program .module [5]].map
      fun k => ⟨k, default, default, none⟩).toArray⟩

/-- A module with a store that is read in a block, and `x` free. -/
def reactiveRun : List ScopeStep :=
  [.addScope .global 8 none, .addScope .module 8 (some 0), .addScope .block 4 (some 1),
    .declare 1 "foo" 7 .variable,
    .addReference 1 1 "x" .write false, .resolve 0, .addReference 2 2 "x" .read false, .resolve 1,
    .addReference 2 6 "$foo" .read false, .resolve 2]

theorem dialect_adds_faithfully_reactive :
    ((run reactiveArena reactiveRun .empty).WellFormed (fun _ => True) ∧
      (run reactiveArena reactiveRun .empty).UnderTop ∧ (run reactiveArena reactiveRun .empty).Faithful ∧
      (run reactiveArena reactiveRun .empty).NamedBy reactiveArena) ∧
    (apply reactiveArena 8 false (run reactiveArena reactiveRun .empty)).1 =
      ⟨false, ["foo"], ["x"], []⟩ ∧
    (apply reactiveArena 8 false (run reactiveArena reactiveRun .empty)).2.Faithful := by
  have hwell : (run reactiveArena reactiveRun .empty).WellFormed fun _ => True :=
    .of_run (by decide +kernel) (by decide +kernel)
  have hunder : (run reactiveArena reactiveRun .empty).UnderTop :=
    .of_ancestors hwell.tree (by decide +kernel) (by decide +kernel)
  have hfaithful : (run reactiveArena reactiveRun .empty).Faithful := .of_all (by decide +kernel)
  have hnamed : (run reactiveArena reactiveRun .empty).NamedBy reactiveArena :=
    .of_entries (by decide +kernel)
  exact ⟨⟨hwell, hunder, hfaithful, hnamed⟩, by decide +kernel,
    (dialect_adds_faithfully reactiveArena 8 false _).2 hwell hunder hfaithful fun _ => hnamed⟩

/-- A made-up reference to `$foo` that lost its variable, beside a written one that is bound in the
global scope. -/
def orphanRun : List ScopeStep :=
  [.addScope .global 8 none, .addScope .module 8 (some 0), .declare 1 "$foo" 6 .variable,
    .synthesizeReference 7 0 1 .read, .removeVariable 6 1, .declare 0 "$foo" 6 .variable,
    .addReference 1 7 "$foo" .read false, .resolve 1, .declare 1 "foo" 6 .variable]

/-- A free reference `y` filed under an identifier `x`, beside a reference to `x` in the global
scope. -/
def misnamedRun : List ScopeStep :=
  [.addScope .global 8 none, .addScope .module 8 (some 0), .declare 0 "x" 2 .variable,
    .addReference 1 1 "y" .write false, .resolve 0, .addReference 1 2 "x" .read false, .resolve 1]

/-- The written references of a graph are bound to what they mean, and after the dialect the written
one `r` is not. -/
def DialectCaptures (a : Arena) (program : NodeId) (g : ScopeGraph) (r : ReferenceId) : Prop :=
  g.WellFormed (fun _ => True) ∧ g.UnderTop ∧
    (∀ q < g.references.size, (g.referenceAt q).isVirtual = false → g.Lexical q) ∧
    (apply a program false g).2.LiveReference r ∧
    ((apply a program false g).2.referenceAt r).isVirtual = false ∧
    ¬ (apply a program false g).2.Lexical r

/-- Written references that are bound to what they mean are not enough: a free reference that is
made up, or one under another name than its identifier, lets the top scope declare a name that
captures a written reference. -/
theorem dialect_captures_written :
    DialectCaptures reactiveArena 8 (run reactiveArena orphanRun .empty) 1 ∧
      DialectCaptures reactiveArena 8 (run reactiveArena misnamedRun .empty) 1 := by
  have horphan : (run reactiveArena orphanRun .empty).WellFormed fun _ => True :=
    .of_run (by decide +kernel) (by decide +kernel)
  have hmisnamed : (run reactiveArena misnamedRun .empty).WellFormed fun _ => True :=
    .of_run (by decide +kernel) (by decide +kernel)
  refine ⟨⟨horphan, .of_ancestors horphan.tree (by decide +kernel) (by decide +kernel), ?_⟩,
    hmisnamed, .of_ancestors hmisnamed.tree (by decide +kernel) (by decide +kernel), ?_⟩
  · decide +kernel
  · decide +kernel

end Loom
