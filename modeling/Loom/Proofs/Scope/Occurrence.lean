import Loom.Proofs.Scope.Sound

/-!
Where variables are defined and references are made.

Edits that take something out leave everything else where it was. When a scope dissolves, its
variables are those of the scope above it; their definitions stay.
-/

open List

namespace Loom

/-- A node is a defining occurrence of the variable. -/
def Variable.Defines (x : Variable) (i : NodeId) : Prop :=
  i ∈ x.identifiers ∨ ∃ d ∈ x.defs, d.name = i

namespace ScopeGraph

variable {g g1 g' : ScopeGraph} {settled : ReferenceId → Prop} {s t src dst : ScopeId}
  {v w : VariableId} {r q : ReferenceId} {name : String} {i j : NodeId}

/-! Definitions. -/

/-- A live variable of a scope has a name and a defining occurrence. -/
structure DefinedBy (g : ScopeGraph) (v : VariableId) (s : ScopeId) (name : String) (i : NodeId) :
    Prop where
  live : g.LiveVariable v
  scope : (g.variableAt v).scope = s
  named : (g.variableAt v).name = name
  defines : (g.variableAt v).Defines i

/-- A scope has a variable of this name that is defined at `i`. -/
def DefinedAt (g : ScopeGraph) (s : ScopeId) (name : String) (i : NodeId) : Prop :=
  ∃ v, g.DefinedBy v s name i

/-- The variables without the references to them. -/
def defView (g : ScopeGraph) : Nat × (VariableId → Variable) :=
  (g.vars.size, fun v => { g.variableAt v with references := [] })

theorem definedBy_congr (h : g'.defView = g.defView) :
    g'.DefinedBy v s name i ↔ g.DefinedBy v s name i := by
  have hsize : g'.vars.size = g.vars.size := congrArg Prod.fst h
  have hvariable : { g'.variableAt v with references := [] } =
    { g.variableAt v with references := [] } :=
    congrFun (congrArg Prod.snd h) v
  obtain ⟨hname, hscope, hidents, hdefs, -, hrem⟩ := Variable.mk.inj hvariable
  have hlive : g'.LiveVariable v ↔
      g.LiveVariable v := by rw [LiveVariable, LiveVariable, hsize, hrem]
  have hdefines : (g'.variableAt v).Defines i ↔ (g.variableAt v).Defines i := by
    rw [Variable.Defines, Variable.Defines, hidents, hdefs]
  refine ⟨fun hv => ?_, fun hv => ?_⟩
  · exact ⟨hlive.mp hv.live, hscope ▸ hv.scope, hname ▸ hv.named, hdefines.mp hv.defines⟩
  · exact ⟨hlive.mpr hv.live, hscope.trans hv.scope, hname.trans hv.named, hdefines.mpr hv.defines⟩

theorem definedAt_congr (h : g'.defView = g.defView) :
    g'.DefinedAt s name i ↔ g.DefinedAt s name i :=
  exists_congr fun _ => definedBy_congr h

theorem defView_modifyVariable {f : Variable → Variable}
    (hf : ∀ x, ({ f x with references := [] } : Variable) = { x with references := [] }) :
    (g.modifyVariable v f).defView = g.defView := by
  unfold defView
  rw [size_modifyVariable]
  congr 1
  funext w
  exact field_modifyVariable (fun x => { x with references := [] }) hf g v w

instance : IgnoresReferences defView where
  bound := defView_modifyVariable fun _ => rfl

instance : IgnoresTree defView := ⟨rfl⟩

theorem definedAt_registerNode {n : NodeId} :
    (g.registerNode n t).DefinedAt s name i ↔ g.DefinedAt s name i :=
  definedAt_congr rfl

theorem definedBy_deleteVariable (h : (g.deleteVariable v).DefinedBy w s name i) :
    g.DefinedBy w s name i := by
  rw [deleteVariable_eq] at h
  have hview : ((g.retireVariable v).demoteAll (g.ancestors (g.variableAt v).scope)
      (g.variableAt v).references).defView = (g.retireVariable v).defView :=
    view_demoteAll defView
  obtain ⟨hlive, hscope, hname, hdefines⟩ := (definedBy_congr hview).mp h
  obtain ⟨hlive, hne⟩ := liveVariable_retireVariable.mp hlive
  rw [variableAt_retireVariable, if_neg fun he => hne he.1] at hscope hname hdefines
  exact ⟨hlive, hscope, hname, hdefines⟩

/-- Of the definitions only the given occurrence of the variable goes. -/
theorem definedBy_removeOccurrence (h : (g.removeOccurrence v i).DefinedBy w s name j) :
    g.DefinedBy w s name j ∧ (w = v → j ≠ i) := by
  let own := (g.variableAt v).references.filter fun r => (g.referenceAt r).identifier == i
  let kept : Variable → Variable := fun x =>
    { x with identifiers := x.identifiers.filter (· != i), defs := x.defs.filter (·.name != i) }
  have hkept : ((own.foldl unlinkReference g).modifyVariable v kept).DefinedBy w s name j := by
    unfold removeOccurrence at h
    dsimp only at h
    split at h
    · exact definedBy_deleteVariable h
    · exact h
  have hown : (own.foldl unlinkReference g).defView = g.defView :=
    view_unlinkReferences defView
  rw [← definedBy_congr hown]
  generalize own.foldl unlinkReference g = g1 at hkept
  obtain ⟨hlive, hscope, hname, hdefines⟩ := hkept
  rw [LiveVariable, size_modifyVariable] at hlive
  rw [variableAt_modifyVariable] at hlive hscope hname hdefines
  split at hdefines
  · rename_i hw
    obtain ⟨rfl, -⟩ := hw
    rw [if_pos ⟨rfl, hlive.1⟩] at hlive hscope hname
    have hmem : (g1.variableAt w).Defines j ∧ j ≠ i := by
      rcases hdefines with hident | ⟨d, hd, rfl⟩
      · obtain ⟨hmem, hne⟩ := mem_filter.mp hident
        exact ⟨.inl hmem, by simpa using hne⟩
      · obtain ⟨hmem, hne⟩ := mem_filter.mp hd
        exact ⟨.inr ⟨d, hmem, rfl⟩, by simpa using hne⟩
    exact ⟨⟨hlive, hscope, hname, hmem.1⟩, fun _ => hmem.2⟩
  · rename_i hw
    rw [if_neg hw] at hlive hscope hname
    refine ⟨⟨hlive, hscope, hname, hdefines⟩, fun heq => ?_⟩
    exact absurd ⟨heq, heq ▸ hlive.1⟩ hw

/-- A variable of a scope is the one that its name declares there. -/
theorem WellFormed.declared_of_definedBy (h : g.WellFormed settled) (hv : g.DefinedBy v s name i) :
    g.LiveScope s ∧ g.declared? s name = some v := by
  have hs : g.LiveScope s := hv.scope ▸ h.declarations.scope_live hv.live
  exact ⟨hs, (h.declarations.declared_iff hs).mpr
    ⟨(h.declarations.mem_vars hs).mpr ⟨hv.live, hv.scope⟩, hv.named⟩⟩

theorem definedBy_removeBinding {a : Arena} (h : (g.removeBinding a s i).DefinedBy w t name j) :
    g.DefinedBy w t name j := by
  unfold removeBinding at h
  split at h
  · exact (definedBy_removeOccurrence h).1
  · exact h

/-- The occurrence of an identifier in the scope that declares its name is gone. -/
theorem WellFormed.not_definedAt_removeBinding {a : Arena} (h : g.WellFormed settled)
    (hi : a.kind i = .identifier name) : ¬ (g.removeBinding a s i).DefinedAt s name i := by
  rintro ⟨w, hw⟩
  obtain ⟨-, hdecl⟩ := h.declared_of_definedBy (definedBy_removeBinding hw)
  have hname : a.identifierName? i = some name := by rw [Arena.identifierName?, hi]
  rw [ScopeGraph.removeBinding, hname, Option.bind_some, hdecl] at hw
  exact (definedBy_removeOccurrence hw).2 rfl rfl

theorem definedAt_removeVariable {a : Arena} {pattern : NodeId}
    (h : (g.removeVariable a pattern s).DefinedAt t name j) : g.DefinedAt t name j := by
  unfold removeVariable at h
  generalize patternIdentifiers a pattern = identifiers at h
  induction identifiers generalizing g with
  | nil => exact h
  | cons i identifiers ih =>
    obtain ⟨w, hw⟩ := ih h
    exact ⟨w, definedBy_removeBinding hw⟩

theorem definedAt_removeReference (h : (g.removeReference i s).2.DefinedAt t name j) :
    g.DefinedAt t name j := by
  rcases removeReference_cases g i s with ⟨-, heq⟩ | ⟨r, -, heq | ⟨v, -, heq⟩⟩
  · rwa [heq] at h
  · rw [heq] at h
    exact (definedAt_congr (view_unlinkReference defView)).mp h
  · rw [heq] at h
    obtain ⟨w, hw⟩ := h
    exact ⟨w, (definedBy_congr (view_unlinkReference defView)).mp (definedBy_removeOccurrence hw).1⟩

/-! Variables that move. -/

/-- Variables that move take their definitions to the scope, or to the variable of their name
there. -/
theorem Gathered.definedAt {vs : List VariableId} (h : Gathered g g' dst vs) (hd : g.Declares dst)
    (hvs : ∀ v ∈ vs, g.LiveVariable v ∧ (g.variableAt v).scope = src)
    (hdef : g'.DefinedAt t name i) : g.DefinedAt t name i ∨ (t = dst ∧ g.DefinedAt src name i) := by
  obtain ⟨x, hlive, hscope, hname, hdefines⟩ := hdef
  have hx := ((h.live x).mp hlive).1
  obtain ⟨hsameName, hsameScope, hidents, hdefs, -, -⟩ := Variable.mk.inj (h.record hlive)
  rw [hsameName] at hname
  rw [hsameScope] at hscope
  -- The definitions are its own and those of its namesakes.
  have hall : (g.variableAt x).Defines i ∨ ∃ v ∈ g.namesakes dst vs x,
      (g.variableAt v).Defines i := by
    rw [Variable.Defines, hidents, hdefs] at hdefines
    simp only [Variable.Defines, flatMap_map, mem_append, mem_flatMap] at hdefines ⊢
    grind
  rcases hall with hown | ⟨v, hv, hother⟩
  · split at hscope
    · rename_i hmem
      exact .inr ⟨hscope.symm, x, hx, (hvs x hmem).2, hname, hown⟩
    · exact .inl ⟨x, hx, hscope, hname, hown⟩
  · obtain ⟨hmem, hnamesake⟩ := mem_filter.mp hv
    obtain ⟨-, hxdst, hxname⟩ := hd.declared (beq_iff_eq.mp hnamesake)
    rw [hxdst, ite_self] at hscope
    exact .inr ⟨hscope.symm, v, (hvs v hmem).1, (hvs v hmem).2, hxname.symm.trans hname, hother⟩

/-- The definitions of a dissolved scope are those of the scope above it. -/
theorem WellFormed.definedAt_replaceScope {new : List ScopeId} (h : g.WellFormed settled)
    (hs : g.LiveScope src)
    (hup : g.Up src dst) (hdef : (g.replaceScope src new).DefinedAt t name i) :
    g.DefinedAt t name i ∨ (t = dst ∧ g.DefinedAt src name i) := by
  have hd : g.LiveScope dst := h.tree.upper_live hs hup
  have hne : dst ≠ src := fun he => h.tree.not_below_of_up hs hup (he ▸ .refl)
  have hretire : ∀ g f, ((modifyScope g src f).retireScope src).defView = g.defView :=
    fun _ _ => rfl
  rw [replaceScope_eq hup, definedAt_congr (hretire ..), handUp] at hdef
  have hcontent : (g.replaceTree src (g.scopeAt dst).variableScope dst new).contentView =
      g.contentView :=
    view_replaceTree contentView
  have hlive : (g.replaceTree src (g.scopeAt dst).variableScope dst new).LiveScope = g.LiveScope :=
    view_replaceTree LiveScope
  have hview : (g.replaceTree src (g.scopeAt dst).variableScope dst new).defView = g.defView :=
    view_replaceTree defView
  generalize g.replaceTree src (g.scopeAt dst).variableScope dst new =
    lifted at hdef hcontent hlive hview
  obtain ⟨hdecl, -, hbind⟩ := h.links_of_content hlive hcontent
  have hdecls : (lifted.takeReferences src dst).DeclarationLinks := hdecl.takeReferences
  have hbindings : (lifted.takeReferences src dst).BindingLinks := hbind.takeReferences
  have hsame : (lifted.takeReferences src dst).LiveScope = g.LiveScope :=
    (liveScope_congr (view_takeReferences treeView)).trans hlive
  have hview' : (lifted.takeReferences src dst).defView = g.defView :=
    (view_takeReferences defView).trans hview
  rw [← definedAt_congr hview', ← definedAt_congr hview']
  rw [← hsame] at hs hd
  refine (gathered_takeVariables hdecls hbindings hs hd hne ?_).definedAt
    (hdecls.declares hd) (fun v hv => (hdecls.mem_vars hs).mp hv) hdef
  exact fun _ => rfl

/-! References. -/

/-- A live reference is made at `i`. -/
def Mentioned (g : ScopeGraph) (i : NodeId) : Prop :=
  ∃ r, g.LiveReference r ∧ (g.referenceAt r).identifier = i

/-- The index files every live reference under its identifier. -/
def MentionsFiled (g : ScopeGraph) : Prop :=
  ∀ r, g.LiveReference r → r ∈ g.identifierReferences.get (g.referenceAt r).identifier

/-- The references of `g'` are references of `g`, at the same identifiers. -/
structure FewerMentions (g g' : ScopeGraph) : Prop where
  view : g'.mentionView = g.mentionView
  live : ∀ r, g'.LiveReference r → g.LiveReference r

namespace FewerMentions

theorem refl (g : ScopeGraph) : FewerMentions g g := ⟨rfl, fun _ => id⟩

theorem trans (h : FewerMentions g g1) (h' : FewerMentions g1 g') : FewerMentions g g' :=
  ⟨h'.view.trans h.view, fun r hr => h.live r (h'.live r hr)⟩

theorem identifier (h : FewerMentions g g') (r : ReferenceId) :
    (g'.referenceAt r).identifier = (g.referenceAt r).identifier :=
  congrFun (congrArg Prod.snd h.view) r

theorem index (h : FewerMentions g g') : g'.identifierReferences = g.identifierReferences :=
  congrArg Prod.fst h.view

theorem mentioned (h : FewerMentions g g') (hi : g'.Mentioned i) : g.Mentioned i := by
  obtain ⟨r, hr, hident⟩ := hi
  exact ⟨r, h.live r hr, (h.identifier r).symm.trans hident⟩

theorem filed (h : FewerMentions g g') (hg : g.MentionsFiled) : g'.MentionsFiled := by
  intro r hr
  rw [h.identifier, h.index]
  exact hg r (h.live r hr)

theorem foldl {α : Type} {f : ScopeGraph → α → ScopeGraph} (hf : ∀ g x, FewerMentions g (f g x))
    (xs : List α) (g : ScopeGraph) : FewerMentions g (xs.foldl f g) := by
  induction xs generalizing g with
  | nil => exact refl g
  | cons x xs ih => exact (hf g x).trans (ih (f g x))

section

variable (g : ScopeGraph)

theorem unlinkReference (r : ReferenceId) : FewerMentions g (g.unlinkReference r) :=
  ⟨view_unlinkReference mentionView, fun _ hq => (liveReference_unlinkReference.mp hq).1⟩

theorem removeOccurrence (v : VariableId) (i : NodeId) :
    FewerMentions g (g.removeOccurrence v i) := by
  refine ⟨view_removeOccurrence mentionView, fun r hr => ?_⟩
  let own := (g.variableAt v).references.filter fun r => (g.referenceAt r).identifier == i
  refine (foldl unlinkReference own g).live r ?_
  unfold ScopeGraph.removeOccurrence at hr
  dsimp only at hr
  split at hr
  · rw [liveReference_congr (view_deleteVariable placeView)] at hr
    exact hr
  · exact hr

theorem removeBinding (a : Arena) (s : ScopeId) (i : NodeId) :
    FewerMentions g (g.removeBinding a s i) := by
  unfold ScopeGraph.removeBinding
  split
  · exact removeOccurrence ..
  · exact refl g

theorem removeVariable (a : Arena) (pattern : NodeId) (s : ScopeId) :
    FewerMentions g (g.removeVariable a pattern s) :=
  foldl (fun g i => removeBinding g a s i) _ g

theorem removeReference (i : NodeId) (s : ScopeId) : FewerMentions g (g.removeReference i s).2 := by
  rcases removeReference_cases g i s with ⟨-, heq⟩ | ⟨r, -, heq | ⟨v, -, heq⟩⟩ <;> rw [heq]
  · exact refl g
  · exact unlinkReference g r
  · exact (unlinkReference g r).trans (removeOccurrence ..)

theorem registerNode (n : NodeId) (s : ScopeId) : FewerMentions g (g.registerNode n s) :=
  ⟨rfl, fun _ => id⟩

theorem replaceScope (src : ScopeId) (new : List ScopeId) :
    FewerMentions g (g.replaceScope src new) := by
  cases hup : (g.scopeAt src).upper with
  | none =>
    rw [replaceScope_root hup]
    exact refl g
  | some dst =>
    rw [replaceScope_eq hup]
    have hview : (g.handUp src dst new).mentionView = g.mentionView := by
      rw [view_handUp mentionView, view_replaceTree mentionView]
    have hlive : (g.handUp src dst new).LiveReference = g.LiveReference := by
      rw [handUp, liveReference_congr (view_takeVariables placeView (placeView_modifyScope fun _ => by rfl)),
        liveReference_takeReferences, liveReference_congr (placeView_of_content (view_replaceTree contentView))]
    generalize g.handUp src dst new = adopted at hview hlive
    exact ⟨hview, fun r hr => hlive ▸ hr⟩

end

end FewerMentions

/-- Removing the only reference of an identifier. -/
theorem WellFormed.not_mentioned_removeReference (h : g.WellFormed settled) (hs : g.LiveScope s)
    (hfiled : g.MentionsFiled) (hone : g.identifierReferences.get i = [r]) :
    ¬ (g.removeReference i s).2.Mentioned i := by
  rintro ⟨q, hq, hident⟩
  have hfewer := FewerMentions.removeReference g i s
  rw [hfewer.identifier] at hident
  have hlive := hfewer.live q hq
  have hmem := hfiled q hlive
  rw [hident, hone, mem_singleton] at hmem
  subst hmem
  rcases removeReference_cases g i s with ⟨hnone, -⟩ | ⟨r, hr, hcases⟩
  · -- A reference in the index is found.
    have hempty := head?_eq_none_iff.mp (Option.or_eq_none_iff.mp hnone).2
    rw [referencesTo, hone, filter_singleton, hlive.2] at hempty
    cases hempty
  · have hfound : r = q := by
      rcases Option.or_eq_some_iff.mp hr with hin | ⟨-, hindex⟩
      · have hin' := ((h.places.mem_references hs).mp (mem_of_find?_eq_some hin)).1
        have hident' := find?_some hin
        rw [beq_iff_eq] at hident'
        have hmem := hfiled r hin'
        rwa [hident', hone, mem_singleton] at hmem
      · have hmem := (mem_filter.mp (mem_of_mem_head? hindex)).1
        rwa [hone, mem_singleton] at hmem
    subst hfound
    rcases hcases with heq | ⟨v, -, heq⟩
    · rw [heq] at hq
      exact (liveReference_unlinkReference.mp hq).2 rfl
    · rw [heq] at hq
      exact (liveReference_unlinkReference.mp ((FewerMentions.removeOccurrence ..).live _ hq)).2 rfl

end ScopeGraph

end Loom
