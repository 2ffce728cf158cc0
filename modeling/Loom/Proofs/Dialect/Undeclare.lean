import Loom.Proofs.Dialect.Pattern
import Loom.Proofs.Scope.Erase
import Loom.Proofs.Scope.Extend
import Loom.Proofs.Scope.Occurrence

/-!
The identifiers of a pattern, declared in a scope and removed again.

At each point in between, the graph is the one before with some occurrences laid over it: they
belong to the variables that the scope has for their names, which may be new. Declaring an
identifier adds its occurrence at the end, and removing it takes it away from the front. A new
variable goes with its last occurrence.
-/

open List

namespace Loom

open Dialect

variable {kind : NodeId → DefinitionKind} {is : List NodeId} {i : NodeId}

namespace Variable

variable {x y : Variable}

/-- `y` has the defining occurrences of `x` and more after them. -/
structure Occurs (kind : NodeId → DefinitionKind) (is : List NodeId) (x y : Variable) : Prop where
  identifiers : y.identifiers = x.identifiers ++ is
  defs : y.defs = x.defs ++ is.map fun i => ⟨kind i, i⟩

/-- The variable with one more defining occurrence. -/
def occur (y : Variable) (kind : NodeId → DefinitionKind) (i : NodeId) : Variable :=
  { y with
    identifiers := y.identifiers ++ [i]
    defs := y.defs ++ [⟨kind i, i⟩] }

/-- The variable without its occurrences at an identifier. -/
def forget (y : Variable) (i : NodeId) : Variable :=
  { y with
    identifiers := y.identifiers.filter (· != i)
    defs := y.defs.filter (·.name != i) }

instance : Decidable (x.Defines i) := inferInstanceAs (Decidable (_ ∨ _))

theorem Occurs.occur (h : Occurs kind is x y) : Occurs kind (is ++ [i]) x (y.occur kind i) := by
  constructor <;> simp [Variable.occur, h.identifiers, h.defs]

theorem Occurs.forget (h : Occurs kind (i :: is) x y) (hx : ¬ x.Defines i) (hi : i ∉ is) :
    Occurs kind is x (y.forget i) := by
  have hidents := ScopeGraph.filter_ne_eq_self fun hmem => hx (.inl hmem)
  have hdefs := filter_eq_self.mpr fun d hd => bne_iff_ne.mpr fun hname => hx (.inr ⟨d, hd, hname⟩)
  have hnames : ∀ j ∈ is, (j != i) = true := fun j hj => bne_iff_ne.mpr fun heq => hi (heq ▸ hj)
  constructor
  · simp [Variable.forget, h.identifiers, hidents, filter_eq_self.mpr hnames]
  · simp only [Variable.forget, h.defs, filter_append, hdefs, map_cons, filter_cons,
      bne_self_eq_false]
    simpa using fun j hj (heq : j = i) => hi (heq ▸ hj)

end Variable

namespace ScopeGraph

variable {g g' : ScopeGraph} {s : ScopeId} {name : NodeId → String} {js : List NodeId}
  {names names' : List String}
  {v : VariableId} {n : String} {settled : ReferenceId → Prop} {a : Arena}

/-- Declares identifiers in a scope. -/
def declareAll (g : ScopeGraph) (a : Arena) (s : ScopeId) (kind : NodeId → DefinitionKind)
    (is : List NodeId) : ScopeGraph :=
  is.foldl (fun g i =>
    match a.identifierName? i with
    | some name => (g.declare s name i (kind i)).2
    | none => g) g

theorem DeclarationLinks.declared_of_mem (h : g.DeclarationLinks) (hs : g.LiveScope s)
    {e : String × VariableId} (he : e ∈ (g.scopeAt s).set) : g.declared? s e.1 = some e.2 := by
  obtain ⟨l, l', heq⟩ := append_of_mem he
  have hnodup := h.names_nodup hs
  refine lookup_eq_some_iff.mpr ⟨l, l', heq, fun d hd => bne_iff_ne.mpr fun hname => ?_⟩
  rw [heq, map_append] at hnodup
  exact (nodup_append.mp hnodup).2.2 _ (mem_map_of_mem hd) _ mem_cons_self hname.symm

/-- No variable has a defining occurrence at the identifier, and no reference is made by it. -/
def Unused (g : ScopeGraph) (i : NodeId) : Prop :=
  (∀ v, g.LiveVariable v → ¬ (g.variableAt v).Defines i) ∧ ¬ g.Mentioned i

/-- The graph with occurrences at identifiers laid over a scope. The variables made for them have
the names `names`. -/
structure Overlaid (settled : ReferenceId → Prop) (s : ScopeId) (name : NodeId → String)
    (kind : NodeId → DefinitionKind) (is : List NodeId) (names : List String) (g g' : ScopeGraph) :
    Prop where
  wellFormed : g'.WellFormed settled
  tree : g'.treeView = g.treeView
  references : g'.references = g.references
  vars_size : g.vars.size ≤ g'.vars.size
  declares : ∀ i ∈ is, ∃ v, g'.declared? s (name i) = some v
  occurs : ∀ v, Variable.Occurs kind (is.filter fun i => g'.declared? s (name i) = some v)
    (g.variableAt v) (g'.variableAt v)
  scope : ∃ fresh : List (String × VariableId), (g'.scopeAt s = { g.scopeAt s with
      vars := (g.scopeAt s).vars ++ fresh.map Prod.snd
      set := (g.scopeAt s).set ++ fresh }) ∧ ∀ e ∈ fresh, g.vars.size ≤ e.2 ∧ e.1 ∈ names

namespace Overlaid

theorem refl (h : g.WellFormed settled) : g.Overlaid settled s name kind [] [] g :=
  ⟨h, rfl, rfl, le_rfl, by simp, fun v => by constructor <;> simp, [], by simp, by simp⟩

variable (hg : g.WellFormed settled) (hs : g.LiveScope s)
  (h : g.Overlaid settled s name kind is names g')

include h

theorem liveReference (r : ReferenceId) : g'.LiveReference r ↔ g.LiveReference r := by
  simp only [LiveReference, referenceAt, h.references]

/-- The variable of a name was there before, or was made for an occurrence. -/
theorem found (hv : g'.declared? s n = some v) :
    g.declared? s n = some v ∨ g.vars.size ≤ v ∧ n ∈ names := by
  obtain ⟨fresh, hscope, hfresh⟩ := h.scope
  rw [declared?, hscope, lookup_append, Option.or_eq_some_iff] at hv
  refine hv.imp_right fun hv => ?_
  obtain ⟨l, l', heq, -⟩ := lookup_eq_some_iff.mp hv.2
  exact hfresh (n, v) (by simp [heq])

include hs

theorem declared (hv : g'.declared? s n = some v) :
    g'.LiveVariable v ∧ (g'.variableAt v).scope = s ∧ (g'.variableAt v).name = n :=
  h.wellFormed.declarations.declared (hs.of_tree h.tree) hv

/-- Only the names that new variables have count. -/
theorem mono (hnames : ∀ m ∈ names, ∀ w, g.vars.size ≤ w → g'.declared? s m = some w → m ∈ names') :
    g.Overlaid settled s name kind is names' g' := by
  obtain ⟨fresh, hscope, hfresh⟩ := h.scope
  refine { h with scope := ⟨fresh, hscope, fun e he => ⟨(hfresh e he).1, ?_⟩⟩ }
  refine hnames _ (hfresh e he).2 _ (hfresh e he).1 ?_
  exact h.wellFormed.declarations.declared_of_mem (hs.of_tree h.tree) (by simp [hscope, he])

/-- A change of the occurrences of one variable, where no other identifier comes or goes. -/
theorem modify {f : Variable → Variable}
    (hf : ∀ x, (f x).name = x.name ∧ (f x).scope = x.scope ∧ (f x).removed = x.removed ∧
      (f x).references = x.references) (hv : g'.declared? s (name i) = some v)
    (hother : ∀ q : NodeId → Bool, q i = false → js.filter q = is.filter q)
    (hown : Variable.Occurs kind (js.filter fun j => g'.declared? s (name j) = some v)
      (g.variableAt v) (f (g'.variableAt v)))
    (hdeclares : ∀ j ∈ js, ∃ w, g'.declared? s (name j) = some w) :
    g.Overlaid settled s name kind js names (g'.modifyVariable v f) := by
  refine ⟨h.wellFormed.modifyOccurrences hf, h.tree, h.references, by simpa using h.vars_size,
    hdeclares, ?_, h.scope⟩
  intro w
  show Variable.Occurs kind (js.filter fun j => g'.declared? s (name j) = some w) _ _
  rw [variableAt_modifyVariable]
  by_cases hw : w = v
  · subst hw
    rw [if_pos ⟨rfl, (h.declared hs hv).1.1⟩]
    exact hown
  · rw [if_neg fun hif => hw hif.1, hother _ (by simp [hv, Ne.symm hw])]
    exact h.occurs w

/-! Declaring. -/

theorem create (hnone : g'.declared? s n = none) :
    g.Overlaid settled s name kind is (names ++ [n]) (g'.createVariable s n).2 := by
  have hlive : g'.LiveScope s := hs.of_tree h.tree
  have hdecl : ∀ j ∈ is, (g'.createVariable s n).2.declared? s (name j) =
      g'.declared? s (name j) := fun j hj => by
    obtain ⟨w, hw⟩ := h.declares j hj
    rw [declared_createVariable hlive, if_neg]
    rintro ⟨-, heq⟩
    cases (heq ▸ hw).symm.trans hnone
  obtain ⟨fresh, hscope, hfresh⟩ := h.scope
  refine ⟨WellFormedBut.createVariable h.wellFormed hlive hnone,
    (view_createVariable treeView).trans h.tree,
    h.references, h.vars_size.trans (by simp [createVariable, modifyScope]), fun j hj => ?_,
    fun w => ?_, fresh ++ [(n, g'.vars.size)], ?_, ?_⟩
  · rw [hdecl j hj]
    exact h.declares j hj
  · have hoccurs := h.occurs w
    rw [filter_congr fun j hj => by rw [hdecl j hj], variableAt_createVariable]
    split
    · rename_i hw
      rw [variableAt_of_size_le hw.symm.le] at hoccurs
      exact ⟨hoccurs.identifiers, hoccurs.defs⟩
    · exact hoccurs
  · rw [scopeAt_createVariable hlive, setInsert_of_lookup_none hnone, hscope]
    simp
  · rw [forall_mem_append, forall_mem_singleton]
    exact ⟨fun e he => ⟨(hfresh e he).1, mem_append_left _ (hfresh e he).2⟩, h.vars_size, by simp⟩

include hg

theorem lacks (hi : g.Unused i) (hv : g'.declared? s n = some v) :
    ¬ (g.variableAt v).Defines i := by
  rcases h.found hv with hold | ⟨hnew, -⟩
  · exact hi.1 v (hg.declarations.declared hs hold).1
  · rw [variableAt_of_size_le hnew]
    rintro (hmem | ⟨d, hd, -⟩)
    · cases hmem
    · cases hd

theorem declare (hi : i ∉ is) (hunused : g.Unused i) :
    g.Overlaid settled s name kind (is ++ [i]) (names ++ [name i])
      (g'.declare s (name i) i (kind i)).2 := by
  obtain ⟨v, g1, hensure, hv, h1⟩ : ∃ v g1, g'.ensureVariable s (name i) = (v, g1) ∧
      g1.declared? s (name i) = some v ∧ g.Overlaid settled s name kind is (names ++ [name i]) g1 := by
    unfold ensureVariable
    cases hv : g'.declared? s (name i) with
    | some v => exact ⟨v, g', rfl, hv, h.mono hs fun _ hm _ _ _ => mem_append_left _ hm⟩
    | none =>
      refine ⟨g'.vars.size, (g'.createVariable s (name i)).2, rfl, ?_, h.create hs hv⟩
      rw [declared_createVariable (hs.of_tree h.tree), if_pos ⟨rfl, rfl⟩]
  have hnew : i ∉ (g1.variableAt v).identifiers := by
    rw [(h1.occurs v).identifiers, mem_append]
    rintro (hmem | hmem)
    · exact h1.lacks hg hs hunused hv (.inl hmem)
    · exact hi (mem_of_mem_filter hmem)
  have hdeclare : (g'.declare s (name i) i (kind i)).2 = g1.modifyVariable v (·.occur kind i) := by
    unfold ScopeGraph.declare
    rw [hensure]
    simp only [contains_eq_mem, hnew, decide_false, Bool.false_eq_true, if_false]
    rfl
  rw [hdeclare]
  refine h1.modify hs (fun _ => ⟨rfl, rfl, rfl, rfl⟩) hv (fun q hq => by simp [hq]) ?_ ?_
  · rw [filter_append, filter_cons_of_pos (by simpa using hv)]
    exact (h1.occurs v).occur
  · rw [forall_mem_append, forall_mem_singleton]
    exact ⟨h1.declares, v, hv⟩

/-! Removing. -/

/-- A variable made for occurrences, when none is left. -/
theorem retire (hv : g'.declared? s n = some v) (hnew : g.vars.size ≤ v)
    (hnone : ∀ i ∈ is, name i ≠ n) (hnames : ∀ m ∈ names, m ≠ n → m ∈ names') :
    g.Overlaid settled s name kind is names' (g'.deleteVariable v) := by
  obtain ⟨hlive, hscope, hname⟩ := h.declared hs hv
  have hs' : g'.LiveScope s := hs.of_tree h.tree
  -- What is bound to a variable was bound to it before, so nothing is bound to a new one.
  have hunbound := eq_nil_iff_forall_not_mem.mpr fun r hr => by
    obtain ⟨hr, hbound⟩ := h.wellFormed.bindings.mem_references.mp hr
    rw [referenceAt, h.references] at hbound
    exact hnew.not_gt (hg.bindings.bound_live ((h.liveReference r).mp hr) hbound).1
  have hwell := h.wellFormed.deleteVariable hlive
  rw [deleteVariable_of_unused hunbound] at hwell ⊢
  have hscopeAt : (g'.retireVariable v).scopeAt s = { g'.scopeAt s with
      vars := (g'.scopeAt s).vars.filter (· != v)
      set := (g'.scopeAt s).set.filter fun e => !(e.1 == n && e.2 == v) } := by
    rw [scopeAt_retireVariable, hscope, hname, if_pos ⟨rfl, hs'.1⟩]
  have hdecl : ∀ i ∈ is, (g'.retireVariable v).declared? s (name i) =
      g'.declared? s (name i) := fun i hi => by
    rw [declared?, hscopeAt, lookup_filter_entry (h.wellFormed.declarations.names_nodup hs') hv,
      if_neg (hnone i hi)]
    rfl
  obtain ⟨fresh, hfresh, hmade⟩ := h.scope
  have hentry : ∀ e ∈ fresh, g'.declared? s e.1 = some e.2 := fun e he =>
    h.wellFormed.declarations.declared_of_mem hs' (by simp [hfresh, he])
  refine ⟨hwell, (view_retireVariable treeView).trans h.tree, h.references, ?_, fun i hi => ?_,
    fun w => ?_, fresh.filter fun e => !(e.1 == n && e.2 == v), ?_, fun e he => ?_⟩
  · exact h.vars_size.trans (size_modifyVariable ..).symm.le
  · rw [hdecl i hi]
    exact h.declares i hi
  · rw [filter_congr fun i hi => by rw [hdecl i hi], variableAt_retireVariable]
    split
    · rename_i hw
      obtain ⟨rfl, -⟩ := hw
      exact ⟨(h.occurs w).identifiers, (h.occurs w).defs⟩
    · exact h.occurs w
  · have hvars := filter_ne_eq_self fun hmem =>
      hnew.not_gt ((hg.declarations.mem_vars hs).mp hmem).1.1
    have hset : (g.scopeAt s).set.filter (fun e => !(e.1 == n && e.2 == v)) = (g.scopeAt s).set := by
      refine filter_eq_self.mpr fun e he => ?_
      have hold := (hg.declarations.declared hs (hg.declarations.declared_of_mem hs he)).1.1
      simp [ne_of_lt (hold.trans_le hnew)]
    rw [hscopeAt, hfresh]
    simp only [filter_append, hvars, hset, filter_map]
    congr 3
    refine filter_congr fun e he => ?_
    have hnamed : e.2 = v → e.1 = n :=
      fun heq => (h.declared hs (heq ▸ hentry e he)).2.2.symm.trans hname
    by_cases heq : e.2 = v <;> simp_all [bne]
  · obtain ⟨he, hne⟩ := mem_filter.mp he
    refine ⟨(hmade e he).1, hnames _ (hmade e he).2 fun hname => ?_⟩
    have hsame : e.2 = v := Option.some.inj ((hname ▸ hentry e he).symm.trans hv)
    simp [hname, hsame] at hne

omit h in
theorem removeBinding (h : g.Overlaid settled s name kind (i :: is) ((i :: is).map name) g')
    (hi : i ∉ is) (hnamed : a.identifierName? i = some (name i)) (hunused : g.Unused i)
    (hdef : ∀ v, g.declared? s (name i) = some v → (g.variableAt v).identifiers ≠ []) :
    g.Overlaid settled s name kind is (is.map name) (g'.removeBinding a s i) := by
  obtain ⟨v, hv⟩ := h.declares i mem_cons_self
  have hown : ((g'.variableAt v).references.filter fun r => (g'.referenceAt r).identifier == i) =
      [] := by
    refine List.filter_eq_nil_iff.mpr fun r hr hat => hunused.2 ⟨r, ?_, ?_⟩
    · exact (h.liveReference r).mp (h.wellFormed.bindings.mem_references.mp hr).1
    · rwa [referenceAt, h.references, beq_iff_eq] at hat
  have hforget : g.Overlaid settled s name kind is ((i :: is).map name)
      (g'.modifyVariable v (·.forget i)) := by
    have hfirst := h.occurs v
    rw [filter_cons_of_pos (by simpa using hv)] at hfirst
    exact h.modify hs (fun _ => ⟨rfl, rfl, rfl, rfl⟩) hv (fun q hq => by simp [hq])
      (hfirst.forget (h.lacks hg hs hunused hv) fun hmem => hi (mem_of_mem_filter hmem))
      fun j hj => h.declares j (mem_cons_of_mem _ hj)
  have hstep :
    g'.removeBinding a s i =
      if ((g'.modifyVariable v (·.forget i)).variableAt v).identifiers.isEmpty then
      (g'.modifyVariable v (·.forget i)).deleteVariable v else g'.modifyVariable v (·.forget i) := by
    unfold ScopeGraph.removeBinding removeOccurrence
    rw [hnamed]
    simp only [Option.bind_some, hv, hown]
    rfl
  have hleft : ((g'.modifyVariable v (·.forget i)).variableAt v).identifiers = _ :=
    (hforget.occurs v).identifiers
  rw [hstep, hleft]
  split
  · rename_i hempty
    rw [List.isEmpty_iff, List.append_eq_nil_iff, List.filter_eq_nil_iff] at hempty
    rcases h.found hv with hold | ⟨hnew, -⟩
    · exact absurd hempty.1 (hdef v hold)
    · refine hforget.retire hg hs hv hnew (fun j hj hname => hempty.2 j hj ?_) fun m hm hne => ?_
      · rw [hname]
        exact decide_eq_true hv
      · exact (mem_cons.mp hm).resolve_left hne
  · rename_i hsome
    refine hforget.mono hs fun m hm w hnew hw => ?_
    rcases mem_cons.mp hm with rfl | hm
    · -- The variable is new and has an occurrence left, which has its name.
      obtain rfl : v = w := Option.some.inj (hv.symm.trans hw)
      rw [variableAt_of_size_le hnew, List.isEmpty_iff] at hsome
      obtain ⟨j, hj⟩ := List.exists_mem_of_ne_nil _ hsome
      obtain ⟨hj, hsame⟩ := mem_filter.mp hj
      have hname := (hforget.declared hs (of_decide_eq_true hsame)).2.2
      exact mem_map.mpr ⟨j, hj, hname.symm.trans (hforget.declared hs hw).2.2⟩
    · exact hm

end Overlaid

section Run

variable (hg : g.WellFormed settled) (hs : g.LiveScope s)
  (hnamed : ∀ i ∈ is, a.identifierName? i = some (name i)) (hunused : ∀ i ∈ is, g.Unused i)

include hg hs hnamed hunused

theorem Overlaid.declareAll {done : List NodeId}
    (h : g.Overlaid settled s name kind done (done.map name) g') (hnodup : (done ++ is).Nodup) :
    g.Overlaid settled s name kind (done ++ is) ((done ++ is).map name)
      (g'.declareAll a s kind is) := by
  induction is generalizing done g' with
  | nil => rwa [append_nil]
  | cons i is ih =>
    have hi : i ∉ done := fun hmem => (nodup_append.mp hnodup).2.2 i hmem i mem_cons_self rfl
    rw [forall_mem_cons] at hnamed hunused
    have hdeclare := h.declare hg hs hi hunused.1
    rw [append_cons] at hnodup ⊢
    unfold ScopeGraph.declareAll
    rw [foldl_cons, hnamed.1]
    exact ih hnamed.2 hunused.2 (by rwa [map_append]) hnodup

theorem Overlaid.removeAll (h : g.Overlaid settled s name kind is (is.map name) g')
    (hnodup : is.Nodup)
    (hdef : ∀ i ∈ is, ∀ v, g.declared? s (name i) = some v → (g.variableAt v).identifiers ≠ []) :
    g.Overlaid settled s name kind [] [] (is.foldl (fun g i => g.removeBinding a s i) g') := by
  induction is generalizing g' with
  | nil => exact h
  | cons i is ih =>
    obtain ⟨hi, hnodup⟩ := nodup_cons.mp hnodup
    rw [forall_mem_cons] at hnamed hunused hdef
    exact ih hnamed.2 hunused.2 (h.removeBinding hg hs hi hnamed.1 hunused.1 hdef.1) hnodup hdef.2

end Run

end ScopeGraph

open ScopeStep ScopeGraph

/-- The identifiers that a pattern binds are declared in a scope, and removing the pattern takes
that back: the scope, the occurrences of the variables and the references are as before, also when
the pattern binds a name twice, or one that the scope declares. -/
theorem removeVariable_declareAll {g : ScopeGraph} {a : Arena} {s : ScopeId} {pattern : NodeId}
    {settled : ReferenceId → Prop} (kind : NodeId → DefinitionKind) (hg : g.WellFormed settled)
    (hs : g.LiveScope s)
    (hpattern : a.IsPattern pattern) (hnodup : (bindingIdentifiers a pattern).Nodup)
    (hunused : ∀ i ∈ bindingIdentifiers a pattern, g.Unused i)
    (hdef : ∀ v ∈ (g.scopeAt s).vars, ∀ i ∈ bindingIdentifiers a pattern,
      a.identifierName? i = some (g.variableAt v).name → (g.variableAt v).identifiers ≠ []) :
    let declared := g.declareAll a s kind (bindingIdentifiers a pattern)
    let g' := declared.removeVariable a pattern s
    (∀ i ∈ bindingIdentifiers a pattern, ∃ n, a.kind i = .identifier n ∧ declared.DefinedAt s n i) ∧
    g'.scopeAt s = g.scopeAt s ∧
      (∀ v, (g'.variableAt v).identifiers = (g.variableAt v).identifiers ∧
      (g'.variableAt v).defs = (g.variableAt v).defs) ∧ g'.references = g.references := by
  let name : NodeId → String := fun i => (a.identifierName? i).getD ""
  have hnamed : ∀ i ∈ bindingIdentifiers a pattern,
      a.identifierName? i = some (name i) := fun i hi => by
    obtain ⟨n, hn⟩ := Option.isSome_iff_exists.mp (Arena.identifierName?_of_mem hi)
    simp [name, hn]
  have hstart : g.Overlaid settled s name kind [] [] g := .refl hg
  have hdecl := hstart.declareAll hg hs hnamed hunused hnodup
  have hrem := hdecl.removeAll hg hs hnamed hunused hnodup fun i hi v hv => by
    obtain ⟨hmem, hname⟩ := (hg.declarations.declared_iff hs).mp hv
    exact hdef v hmem i hi (hname ▸ hnamed i hi)
  refine ⟨fun i hi => ?_, ?_⟩
  · obtain ⟨v, hv⟩ := hdecl.declares i hi
    obtain ⟨hlive, hscope, hname⟩ := hdecl.declared hs hv
    refine ⟨name i, Arena.identifierName?_eq_some.mp (hnamed i hi), v, hlive, hscope, hname,
      .inl ?_⟩
    rw [(hdecl.occurs v).identifiers]
    exact mem_append_right _ (mem_filter.mpr ⟨hi, decide_eq_true hv⟩)
  · rw [ScopeGraph.removeVariable, hpattern.identifiers_eq]
    obtain ⟨fresh, hscope, hfresh⟩ := hrem.scope
    obtain rfl : fresh = [] := eq_nil_iff_forall_not_mem.mpr fun e he => not_mem_nil (hfresh e he).2
    exact ⟨by simpa using hscope, fun v => ⟨by simpa using (hrem.occurs v).identifiers,
      by simpa using (hrem.occurs v).defs⟩, hrem.references⟩

/-- The pattern `{ y: [x, x, , ...w] }`. -/
def nestedPattern : Arena :=
  ⟨([.identifier "y", .identifier "x", .identifier "x", .identifier "w", .restElement 3,
    .arrayPattern [some 1, some 2, none, some 4], .property 0 5 .init false false false,
    .objectPattern [6], .identifier "x"].map fun k => ⟨k, default, default, none⟩).toArray⟩

/-- A scope that declares `x` already, where `w` is free. -/
def shadowedRun : List ScopeStep :=
  [.addScope .global 7 none, .declare 0 "x" 8 .variable, .addReference 0 8 "w" .read false,
    .resolve 0]

theorem removeVariable_declareAll_nested :
    let g := run nestedPattern shadowedRun .empty
    let declared := g.declareAll nestedPattern 0 (fun _ => .variable) [1, 2, 3]
    let g' := declared.removeVariable nestedPattern 7 0
    declared.variableNames 0 = ["x", "w"] ∧ declared.DefinedAt 0 "x" 2 ∧
      g'.scopeAt 0 = g.scopeAt 0 ∧
      (∀ v, (g'.variableAt v).identifiers = (g.variableAt v).identifiers ∧
        (g'.variableAt v).defs = (g.variableAt v).defs) ∧ g'.references = g.references := by
  intro g declared
  have hpattern : nestedPattern.IsPattern 7 := by
    refine .object rfl (by decide) fun c hc v hv => ?_
    obtain rfl : c = 6 := by simpa using hc
    refine Option.some.inj hv ▸ .array rfl fun c hc => ?_
    obtain rfl | rfl | rfl : c = 1 ∨ c = 2 ∨ c = 4 := by simpa using hc
    · exact .identifier rfl
    · exact .identifier rfl
    · exact .rest rfl (.identifier rfl)
  have hwell : g.WellFormed fun _ => True := .of_run (by decide +kernel) (by decide +kernel)
  have hids : bindingIdentifiers nestedPattern 7 = [1, 2, 3] := by decide +kernel
  have hunused : ∀ i ∈ [1, 2, 3], g.Unused i := by
    have hvars : ∀ i ∈ [1, 2, 3], ∀ v < g.vars.size, ¬ (g.variableAt v).Defines i := by decide +kernel
    have hrefs : ∀ i ∈ [1, 2, 3], ∀ r < g.references.size, (g.referenceAt r).identifier ≠ i := by
      decide +kernel
    refine fun i hi => ⟨fun v hv => hvars i hi v hv.1, ?_⟩
    rintro ⟨r, hr, hmade⟩
    exact hrefs i hi r hr.1 hmade
  have hscope : g.LiveScope 0 := ⟨by decide +kernel, by decide +kernel⟩
  obtain ⟨hdef, hsame⟩ := removeVariable_declareAll (fun _ => .variable) hwell hscope hpattern
    (by decide +kernel) (hids ▸ hunused) (by decide +kernel)
  rw [hids] at hdef hsame
  obtain ⟨n, hkind, hat⟩ := hdef 2 (by simp)
  obtain rfl : "x" = n := Kind.identifier.inj hkind
  exact ⟨by decide +kernel, hat, hsame⟩

end Loom
