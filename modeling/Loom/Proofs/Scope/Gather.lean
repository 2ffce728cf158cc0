import Loom.Proofs.Scope.Adopt

/-!
What has become of the variables of a scope once another scope has taken them over.

A variable whose name the other scope declares becomes one with the variable of that name. What was
bound to it is bound to that one then.
-/

open List

namespace Loom

open Variable

/-- A variable without the references to it. -/
def Variable.bare (x : Variable) : Variable := { x with references := [] }

/-- A variable of another scope, with the defining occurrences of others after its own. -/
def Variable.join (x : Variable) (scope : ScopeId) (others : List Variable) : Variable :=
  { x with
    scope
    identifiers := x.identifiers ++ others.flatMap (·.identifiers)
    defs := x.defs ++ others.flatMap (·.defs)
    references := [] }

theorem Variable.join_join {x y : Variable} {s : ScopeId} {us : List Variable}
    (h : y.bare = x.join s us) (t : ScopeId)
    (others : List Variable) : y.join t others = x.join t (us ++ others) := by
  cases y
  obtain ⟨rfl, -, rfl, rfl, -, rfl⟩ := h
  simp [join]

/-- The references of the others do not matter. -/
theorem Variable.join_congr {x : Variable} {s : ScopeId} {vs : List VariableId}
    {f f' : VariableId → Variable}
    (h : ∀ v ∈ vs, (f v).bare = (f' v).bare) : x.join s (vs.map f) = x.join s (vs.map f') := by
  have hidents : ∀ v ∈ vs, (f v).identifiers = (f' v).identifiers := by
    intro v hv
    exact (congrArg identifiers (h v hv) :)
  have hdefs : ∀ v ∈ vs, (f v).defs = (f' v).defs := by
    intro v hv
    exact (congrArg defs (h v hv) :)
  simp only [join, flatMap_map]
  rw [flatMap_congr hidents, flatMap_congr hdefs]

namespace ScopeGraph

variable {g g' g1 : ScopeGraph} {src dst : ScopeId} {v x : VariableId}
  {vs pending : List VariableId}

/-- The variable that stands for a variable once it has moved to `dst`. -/
def heir (g : ScopeGraph) (dst : ScopeId) (v : VariableId) : VariableId :=
  (g.declared? dst (g.variableAt v).name).getD v

/-- Those of `vs` whose name stands for `x` in `dst`. -/
def namesakes (g : ScopeGraph) (dst : ScopeId) (vs : List VariableId) (x : VariableId) :
    List VariableId :=
  vs.filter fun v => g.declared? dst (g.variableAt v).name == some x

theorem namesakes_cons :
    g.namesakes dst (v :: vs) x = g.namesakes dst [v] x ++ g.namesakes dst vs x :=
  filter_append [v] vs

/-- The variables `vs` have moved to `dst`: each is there itself, or its occurrences are those of
its namesake. -/
structure Gathered (g g' : ScopeGraph) (dst : ScopeId) (vs : List VariableId) : Prop where
  live : ∀ x, g'.LiveVariable x ↔
    g.LiveVariable x ∧ ¬ (x ∈ vs ∧ (g.declared? dst (g.variableAt x).name).isSome)
  record : ∀ {x}, g'.LiveVariable x → (g'.variableAt x).bare =
    (g.variableAt x).join (if x ∈ vs then dst else (g.variableAt x).scope)
      ((g.namesakes dst vs x).map g.variableAt)
  vars : (g'.scopeAt dst).vars =
    (g.scopeAt dst).vars ++ vs.filter fun v => (g.declared? dst (g.variableAt v).name).isNone

/-- Only what the graphs say about variables counts. -/
theorem Gathered.congr {g2 : ScopeGraph} (h : Gathered g g' dst vs) (hvars : g1.vars = g.vars)
    (hdecl : ∀ n, g1.declared? dst n = g.declared? dst n)
    (hlist : (g1.scopeAt dst).vars = (g.scopeAt dst).vars)
    (hlive : g2.LiveVariable = g'.LiveVariable)
    (hrecord : ∀ x, (g2.variableAt x).bare = (g'.variableAt x).bare)
    (hlist' : (g2.scopeAt dst).vars = (g'.scopeAt dst).vars) : Gathered g1 g2 dst vs := by
  have hat : g1.variableAt = g.variableAt := by
    funext x
    rw [variableAt, variableAt, hvars]
  have hlive1 : g1.LiveVariable = g.LiveVariable := by
    funext x
    rw [LiveVariable, LiveVariable, hat, hvars]
  have hnamesakes : g1.namesakes dst vs = g.namesakes dst vs := by
    funext x
    simp only [namesakes, hat, hdecl]
  refine ⟨fun x => ?_, fun {x} hx => ?_, ?_⟩
  · rw [hlive, hlive1, hat, hdecl]
    exact h.live x
  · rw [hrecord, hat, hnamesakes]
    exact h.record (hlive ▸ hx)
  · rw [hlist', hlist, hat]
    simp only [hdecl]
    exact h.vars

/-- The variables `vs` have moved to `dst`, and what was bound to one is bound to its heir. -/
structure Adopted (g g' : ScopeGraph) (dst : ScopeId) (vs : List VariableId) :
    Prop extends Gathered g g' dst vs where
  name : ∀ x, (g'.variableAt x).name = (g.variableAt x).name
  declared : ∀ t n, g'.declared? t n =
    if t = dst then (g.declared? dst n).or (vs.find? fun v => (g.variableAt v).name == n)
      else g.declared? t n
  resolved : ∀ {r}, g.LiveReference r → (g'.referenceAt r).resolved =
    (g.referenceAt r).resolved.map fun v => if v ∈ vs then g.heir dst v else v

theorem Adopted.nil (g : ScopeGraph) (dst : ScopeId) : Adopted g g dst [] where
  live := by simp
  record := by
    intro x _
    simp [bare, join, namesakes]
  vars := by simp
  name := fun _ => rfl
  declared := by
    intro t n
    by_cases ht : t = dst <;> simp [ht]
  resolved := by simp

namespace Adopting

/-- One variable moves. -/
theorem adopted (h : g.Adopting src (v :: pending)) (hb : g.BindingLinks) (hd : g.LiveScope dst)
    (hne : dst ≠ src) : Adopted g (g.adoptVariable dst v) dst [v] := by
  obtain ⟨hv, hscope⟩ := h.mem_pending.mp mem_cons_self
  rcases h.cases hd hne with ⟨w, hw, hlive, hwv, heq⟩ | ⟨hnone, heq⟩ <;> rw [heq]
  · refine ⟨⟨fun x => ?_, fun {x} hx => ?_, ?_⟩, name_foldVariable hv hlive hwv, fun t n => ?_,
      fun {r} hr => ?_⟩
    · rw [liveVariable_foldVariable hv hlive hwv, mem_singleton]
      refine and_congr_right fun _ => not_congr ⟨?_, fun hx => hx.1⟩
      rintro rfl
      simp [hw]
    · have hxv := ((liveVariable_foldVariable hv hlive hwv).mp hx).2
      rw [variableAt_foldVariable hv hlive hwv]
      by_cases hxw : x = w
      · subst hxw
        simp [bare, join, namesakes, hw, hxv]
      · simp [bare, join, namesakes, hw, hxv, hxw, Ne.symm hxw]
    · rw [scopeAt_foldVariable]
      simp [hw]
    · rw [declared?, scopeAt_foldVariable, ← declared?]
      by_cases hn : n = (g.variableAt v).name
      · by_cases ht : t = dst <;> simp [hn, ht, hw]
      · by_cases ht : t = dst <;> simp [ht, beq_eq_false_iff_ne.mpr (Ne.symm hn)]
    · have hbound : r ∈ (g.variableAt v).references ↔ (g.referenceAt r).resolved = some v := by
        rw [hb.mem_references]
        exact and_iff_right hr
      rw [resolved_foldVariable hb]
      cases hres : (g.referenceAt r).resolved with
      | none => simp [hbound, hres]
      | some x => by_cases hx : x = v <;> simp [hbound, hres, hx, heir, hw]
  · refine ⟨⟨fun x => ?_, fun {x} hx => ?_, ?_⟩, name_moveVariable hv, fun t n => ?_,
      fun {r} _ => ?_⟩
    · rw [liveVariable_moveVariable hv, mem_singleton]
      refine (and_iff_left ?_).symm
      rintro ⟨rfl, hx⟩
      simp [hnone] at hx
    · rw [variableAt_moveVariable hv]
      by_cases hxv : x = v
      · subst hxv
        simp [bare, join, namesakes, hnone]
      · simp [bare, join, namesakes, hnone, hxv]
    · have hnotin : v ∉ (g.scopeAt dst).vars := fun hmem =>
        hne (((h.declares hd hne).mem_vars.mp hmem).2.symm.trans hscope)
      rw [scopeAt_moveVariable hd]
      simp [pushNew, hnotin, hnone]
    · rw [declared?, scopeAt_moveVariable hd]
      by_cases ht : t = dst
      · subst ht
        rw [if_pos rfl, lookup_setInsert, ← declared?]
        by_cases hn : n = (g.variableAt v).name
        · simp [hn, hnone]
        · simp [hn, beq_eq_false_iff_ne.mpr (Ne.symm hn)]
      · rw [if_neg ht, if_neg ht, ← declared?]
    · have hself : ∀ x, (if x ∈ [v] then g.heir dst x else x) = x := by
        intro x
        by_cases hx : x = v <;> simp [hx, heir, hnone]
      simp only [resolved_congr bindingView_moveVariable, hself, Option.map_id']

/-- All variables move, and no two of them have the same name. -/
theorem adopt_all (h : g.Adopting src pending) (hb : g.BindingLinks) (hd : g.LiveScope dst)
    (hne : dst ≠ src)
    (hnames : ∀ v ∈ pending, ∀ w ∈ pending, (g.variableAt v).name = (g.variableAt w).name → v = w) :
    (pending.foldl (·.adoptVariable dst ·) g).Adopting src [] ∧
      (pending.foldl (·.adoptVariable dst ·) g).BindingLinks ∧
      Adopted g (pending.foldl (·.adoptVariable dst ·) g) dst pending := by
  induction pending generalizing g with
  | nil => exact ⟨h, hb, .nil g dst⟩
  | cons v pending ih =>
    obtain ⟨hnotin, -⟩ := nodup_cons.mp h.pending_nodup
    obtain ⟨h', hb'⟩ := h.adoptVariable hb hd hne
    have hd' : (g.adoptVariable dst v).LiveScope dst := hd.of_tree (view_adoptVariable treeView)
    have hstep := h.adopted hb hd hne
    obtain ⟨hend, hbend, hrest⟩ := ih h' hb' hd' fun w hw x hx heq => by
      rw [hstep.name, hstep.name] at heq
      exact hnames w (mem_cons_of_mem _ hw) x (mem_cons_of_mem _ hx) heq
    refine ⟨hend, hbend, ?_⟩
    -- The variables that are left stand in `dst` for what they stood for.
    have hdecl : ∀ w ∈ pending, (g.adoptVariable dst v).declared? dst
        ((g.adoptVariable dst v).variableAt w).name = g.declared? dst (g.variableAt w).name := by
      intro w hw
      have hname : (g.variableAt v).name ≠ (g.variableAt w).name := fun he =>
        hnotin (hnames v mem_cons_self w (mem_cons_of_mem _ hw) he ▸ hw)
      rw [hstep.name, hstep.declared, if_pos rfl, find?_singleton, beq_eq_false_iff_ne.mpr hname]
      exact Option.or_none
    have hkept : ∀ w ∈ pending, ((g.adoptVariable dst v).variableAt w).bare = (g.variableAt w).bare := by
      intro w hw
      have hwv : w ≠ v := fun he => hnotin (he ▸ hw)
      have hother := h.declared_ne hd hne (mem_cons_of_mem _ hw) (g.variableAt v).name
      rw [hstep.record (h'.mem_pending.mp hw).1]
      simp [bare, join, namesakes, hwv, hother]
    have hnamesakes : ∀ x, (g.adoptVariable dst v).namesakes dst pending x = g.namesakes dst pending x := by
      intro x
      apply filter_congr
      intro w hw
      rw [hdecl w hw]
    rw [foldl_cons]
    refine ⟨⟨fun x => ?_, fun {x} hx => ?_, ?_⟩, fun x => ?_, fun t n => ?_, fun {r} hr => ?_⟩
    · rw [hrest.live, hstep.live]
      by_cases hx : x ∈ pending
      · have hxv : x ≠ v := fun he => hnotin (he ▸ hx)
        simp [hx, hxv, hdecl x hx]
      · simp [hx]
    · have hx' := ((hrest.live x).mp hx).1
      have hnamesake : ∀ w ∈ g.namesakes dst pending x,
          ((g.adoptVariable dst v).variableAt w).bare = (g.variableAt w).bare := fun w hw =>
        hkept w (mem_of_mem_filter hw)
      have hscope := congrArg scope (hstep.record hx')
      simp only [bare, join, mem_singleton] at hscope
      rw [hrest.record hx, hnamesakes, join_congr hnamesake, join_join (hstep.record hx'),
        ← map_append, ← namesakes_cons, hscope]
      by_cases hxv : x = v <;> by_cases hxp : x ∈ pending <;> simp [hxv, hxp]
    · have hfilter : (pending.filter fun w => ((g.adoptVariable dst v).declared? dst
          ((g.adoptVariable dst v).variableAt w).name).isNone) =
          pending.filter fun w => (g.declared? dst (g.variableAt w).name).isNone := by
        apply filter_congr
        intro w hw
        rw [hdecl w hw]
      rw [hrest.vars, hstep.vars, hfilter, append_assoc, ← filter_append, singleton_append]
    · rw [hrest.name, hstep.name]
    · simp only [hrest.declared, hstep.declared, hstep.name, if_true]
      split
      · rw [Option.or_assoc, ← find?_append]
        rfl
      · rfl
    · have hr' : (g.adoptVariable dst v).LiveReference r := hr.of_place (view_adoptVariable placeView)
      rw [hrest.resolved hr', hstep.resolved hr, Option.map_map]
      congr 1
      funext w
      by_cases hwv : w = v
      · subst hwv
        -- The heir is declared in `dst`, so it is not one of the variables that are left.
        have hheir : g.heir dst w ∉ pending := by
          rw [heir]
          cases hx : g.declared? dst (g.variableAt w).name with
          | none => exact hnotin
          | some x => exact fun hmem => h.declared_ne hd hne (mem_cons_of_mem _ hmem) _ hx
        simp [hheir]
      · have hother : w ∈ pending → (g.adoptVariable dst v).heir dst w = g.heir dst w := by
          intro hw
          rw [heir, heir, hdecl w hw]
        by_cases hw : w ∈ pending <;> simp [hw, hwv, hother]

end Adopting

/-- What was bound to a variable of `src` is bound to a variable of `dst`. -/
theorem Adopted.owner {r : ReferenceId} (ha : Adopted g g' dst vs) (h : g.Adopting src vs)
    (hb : g.BindingLinks) (hd : g.LiveScope dst) (hne : dst ≠ src) (hr : g.LiveReference r) :
    g'.owner? r = (g.owner? r).map (redirect src dst) := by
  have hscope : ∀ x,
      g.LiveVariable x → ¬ (x ∈ vs ∧ (g.declared? dst (g.variableAt x).name).isSome) →
      (g'.variableAt x).scope = if x ∈ vs then dst else (g.variableAt x).scope := by
    intro x hx hkept
    exact (congrArg scope (ha.record ((ha.live x).mpr ⟨hx, hkept⟩)) :)
  rw [owner?, owner?, ha.resolved hr]
  cases hres : (g.referenceAt r).resolved with
  | none => rfl
  | some w =>
    have hw := hb.bound_live hr hres
    simp only [Option.map_some, Option.some.injEq]
    by_cases hmem : w ∈ vs
    · rw [if_pos hmem, (h.mem_pending.mp hmem).2, redirect_self, heir]
      cases hx : g.declared? dst (g.variableAt w).name with
      | none => rw [Option.getD_none, hscope w hw (by simp [hx]), if_pos hmem]
      | some x =>
        obtain ⟨hlive, hxdst, -⟩ := (h.declares hd hne).declared hx
        have hout : x ∉ vs := fun hxvs => h.declared_ne hd hne hxvs _ hx
        rw [Option.getD_some, hscope x hlive (by simp [hout]), if_neg hout, hxdst]
    · have hout : (g.variableAt w).scope ≠ src := fun he => hmem (h.mem_pending.mpr ⟨hw, he⟩)
      rw [if_neg hmem, hscope w hw (by simp [hmem]), if_neg hmem, redirect_of_ne hout]

section TakeVariables

variable {f : Scope → Scope} {s : ScopeId}

theorem DeclarationLinks.name_injective (h : g.DeclarationLinks) (hs : g.LiveScope s) :
    ∀ v ∈ (g.scopeAt s).vars, ∀ w ∈ (g.scopeAt s).vars,
      (g.variableAt v).name = (g.variableAt w).name → v = w := by
  intro v hv w hw heq
  have hv' := (h.declared_iff hs).mpr ⟨hv, heq⟩
  have hw' := (h.declared_iff hs).mpr ⟨hw, rfl⟩
  exact Option.some.inj (hv'.symm.trans hw')

variable (h : g.DeclarationLinks) (hb : g.BindingLinks) (hs : g.LiveScope src)
  (hd : g.LiveScope dst) (hne : dst ≠ src) (hf : ∀ x, (f x).removed = x.removed)

include h hb hs hd hne hf

/-- The variables of a scope move to another one. What happens to the scope itself before does not
matter. -/
theorem adopted_takeVariables :
    (g.takeVariables src dst f).Adopting src [] ∧ (g.takeVariables src dst f).BindingLinks ∧
      Adopted (g.modifyScope src f) (g.takeVariables src dst f) dst (g.scopeAt src).vars :=
  ((h.adopting hs).modifySource hf).adopt_all (BindingLinks.congr_live (g := g) rfl rfl rfl hb)
    (hd.modify hf) hne (h.name_injective hs)

theorem owner_takeVariables {r : ReferenceId} (hr : g.LiveReference r) :
    (g.takeVariables src dst f).owner? r = (g.owner? r).map (redirect src dst) :=
  (adopted_takeVariables h hb hs hd hne hf).2.2.owner ((h.adopting hs).modifySource hf)
    (BindingLinks.congr_live (g := g) rfl rfl rfl hb) (hd.modify hf) hne hr

theorem gathered_takeVariables :
    Gathered g (g.takeVariables src dst f) dst (g.scopeAt src).vars := by
  have hdst : (g.modifyScope src f).scopeAt dst = g.scopeAt dst := by
    rw [scopeAt_modifyScope, if_neg fun he => hne he.1]
  refine (adopted_takeVariables h hb hs hd hne hf).2.2.toGathered.congr rfl (fun n => ?_) ?_ rfl
    (fun _ => rfl) rfl
  · rw [declared?, declared?, hdst]
  · rw [hdst]

end TakeVariables

end ScopeGraph

end Loom
