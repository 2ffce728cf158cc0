import Loom.Proofs.Scope.Capture

/-!
What a graph is once a scope has been merged into another.

The children, the variables and the references of the scope belong to the other one then, and a
variable whose name is declared there becomes one with the variable of that name. References that
stay inside the scope, or that the other scope sees the variable of, mean what they meant; all
others that flowed out are bound as a look-up from the other scope finds.
-/

open List

namespace Loom

open ScopeGraph Option

namespace ScopeGraph

variable {g g' : ScopeGraph} {src dst : ScopeId} {settled : ReferenceId → Prop} {r q : ReferenceId}

/-! Everything handed over. -/

instance : IgnoresTree vars := ⟨rfl⟩

instance : IgnoresPlaces vars := ⟨rfl, rfl⟩

section ModifyScope

variable {s : ScopeId} {f : Scope → Scope}

theorem vars_modifyScope : (g.modifyScope s f).vars = g.vars := rfl

theorem bindingView_modifyScope : (g.modifyScope s f).bindingView = g.bindingView := rfl

end ModifyScope

theorem markView_mergeStart : (g.mergeStart src dst).markView = g.markView :=
  (view_mergeStart markView).trans (view_mergeTree markView)

/-- The graph with the children and the variables handed over. -/
def mergeVariables (g : ScopeGraph) (src dst : ScopeId) : ScopeGraph :=
  (g.mergeTree src dst).takeVariables src dst ({ · with vars := [] })

theorem vars_mergeStart : (g.mergeStart src dst).vars = (g.mergeVariables src dst).vars := by
  rw [mergeStart, ← mergeVariables, vars_modifyScope, view_takeReferences vars, vars_modifyScope]

theorem bindingView_mergeStart :
    (g.mergeStart src dst).bindingView = (g.mergeVariables src dst).bindingView := by
  rw [mergeStart, ← mergeVariables, bindingView_modifyScope, view_takeReferences bindingView,
    bindingView_modifyScope]

/-- From then on the scope itself is the only one with other declarations. -/
theorem declarations_mergeStart {t : ScopeId} (ht : t ≠ src) :
    ((g.mergeStart src dst).scopeAt t).vars = ((g.mergeVariables src dst).scopeAt t).vars ∧
      ((g.mergeStart src dst).scopeAt t).set = ((g.mergeVariables src dst).scopeAt t).set := by
  let cleared := (g.mergeVariables src dst).modifyScope src ({ · with set := [] })
  have hview : (g.mergeStart src dst).declView = cleared.declView :=
    (declView_modifyScope fun _ => by simp).trans (view_takeReferences declView)
  have hkept : cleared.scopeAt t = (g.mergeVariables src dst).scopeAt t := by
    rw [scopeAt_modifyScope, if_neg fun he => ht he.1]
  rw [vars_congr hview, set_congr hview, hkept]
  exact ⟨rfl, rfl⟩

theorem declView_mergeTree : (g.mergeTree src dst).declView = g.declView :=
  declView_of_content (view_mergeTree contentView)

/-- The variables of the scope have moved. -/
theorem WellFormed.gathered_mergeStart (h : g.WellFormed settled) (hs : g.LiveScope src)
    (hd : g.LiveScope dst)
    (hne : dst ≠ src) : Gathered g (g.mergeStart src dst) dst (g.scopeAt src).vars := by
  have hlive : (g.mergeTree src dst).LiveScope = g.LiveScope := view_mergeTree LiveScope
  have hdecl : (g.mergeTree src dst).declView = g.declView := declView_mergeTree
  have hvars : (g.mergeTree src dst).vars = g.vars := view_mergeTree vars
  obtain ⟨hlinks, -, hbind⟩ := h.links_of_content hlive (view_mergeTree contentView)
  have hgathered : Gathered _ (g.mergeVariables src dst) dst _ :=
    gathered_takeVariables hlinks hbind (hlive ▸ hs) (hlive ▸ hd) hne fun _ => rfl
  rw [vars_congr hdecl] at hgathered
  have hat : ∀ x, (g.mergeStart src dst).variableAt x = (g.mergeVariables src dst).variableAt
      x := by
    intro x
    rw [variableAt, variableAt, vars_mergeStart]
  refine hgathered.congr hvars.symm (fun n => (declared_congr hdecl dst n).symm)
    (vars_congr hdecl dst).symm ?_ (fun x => congrArg Variable.bare (hat x))
      (declarations_mergeStart hne).1
  funext x
  rw [LiveVariable, LiveVariable, hat, vars_mergeStart]

/-- What the lookup of names reads of the graph then. -/
theorem WellFormed.inherited_mergeStart (h : g.WellFormed settled) (hs : g.LiveScope src)
    (hd : g.LiveScope dst)
    (hout : ¬ g.Below dst src) : Inherited g (g.mergeStart src dst) src dst := by
  have hover := (h.merging hs hd hout).handed
  have hne : dst ≠ src := fun he => hout (he ▸ .refl)
  have hcontent : (g.mergeTree src dst).contentView = g.contentView := view_mergeTree contentView
  obtain ⟨hdecl, hres⟩ :=
    h.inherit_vars (f := ({ · with vars := [] })) (view_mergeTree LiveScope)
    (liveReference_congr (placeView_of_content hcontent)) declView_mergeTree
      (bindingView_of_content hcontent)
    hs hd hne fun _ => rfl
  refine ⟨hover.live, writtenView_of_mark markView_mergeStart, hover.source, fun {t} ht n => ?_,
    fun {r} hr => ?_⟩
  · rw [declared?, (declarations_mergeStart ht).2]
    exact hdecl ht n
  · rw [resolved_congr bindingView_mergeStart]
    exact hres hr

theorem references_mergeStart (hs : g.LiveScope src) (hd : g.LiveScope dst) (hne : dst ≠ src) :
    ((g.mergeStart src dst).scopeAt dst).references = (g.scopeAt dst).references ++
      (g.scopeAt src).references := by
  let cleared := (g.mergeVariables src dst).modifyScope src ({ · with set := [] })
  have htree : cleared.treeView = (g.mergeTree src dst).treeView := by
    rw [treeView_modifyScope fun _ => by simp, mergeVariables,
      view_takeVariables treeView IgnoresDecls.declared]
  have hplace : cleared.placeView = g.placeView := by
    rw [placeView_modifyScope fun _ => by rfl, mergeVariables,
      view_takeVariables placeView IgnoresDecls.declared]
    exact placeView_of_content (view_mergeTree contentView)
  have hlive : cleared.LiveScope = g.LiveScope :=
    (liveScope_congr htree).trans (view_mergeTree LiveScope)
  have hmoved : ((g.mergeStart src dst).scopeAt dst).references =
      ((cleared.takeReferences src dst).scopeAt dst).references :=
    field_modifyScope (·.references) (fun _ => by rfl) ..
  rw [hmoved, references_takeReferences (hlive ▸ hs) (hlive ▸ hd) hne, if_pos rfl]
  simp only [references_congr hplace]

/-! Rerouting. -/

section Reroute

variable {oldUppers path : List ScopeId}

/-- What a reference is bound to once it is rerouted: the variable that it has, when that one is in
sight. -/
def rebound? (g : ScopeGraph) (path : List ScopeId) (r : ReferenceId) : Option VariableId :=
  let found := path.findSome? (g.declared? · (g.referenceAt r).name)
  match (g.referenceAt r).resolved with
  | none => found
  | some v => if (g.variableAt v).scope ∈ path then some v else found

theorem rebound_congr (hskel : g'.skeleton = g.skeleton)
    (hr : (g'.referenceAt r).resolved = (g.referenceAt r).resolved) (path : List ScopeId) :
    g'.rebound? path r = g.rebound? path r := by
  have hdecl := declaration_of_skeleton hskel
  simp only [rebound?, hr, name_of_skeleton hskel, declared_congr hdecl, scope_congr hdecl]

theorem resolved_rerouteReference (hr : g.LiveReference r) (q : ReferenceId) :
    ((rerouteReference oldUppers path g r).referenceAt q).resolved =
      if q = r then g.rebound? path r else (g.referenceAt q).resolved := by
  by_cases hq : q = r
  · subst hq
    have hdrop : (g.dropThrough oldUppers q).skeleton = g.skeleton := view_dropThrough skeleton
    have hlive : (g.dropThrough oldUppers q).LiveReference q :=
      liveReference_congr (place_of_skeleton hdrop) ▸ hr
    rw [if_pos rfl, ← rebound_congr hdrop (resolved_congr (view_dropThrough bindingView) q)]
    rcases rerouteReference_cases path rfl hlive with ⟨hfree, heq⟩ | ⟨v, hv,
      ⟨hin, heq⟩ | ⟨hout, heq⟩⟩
    · rw [heq, resolved_resolveAlong hlive.1, if_pos rfl, rebound?, hfree, or_none]
    · rw [heq, resolved_congr (view_addThroughs bindingView), rebound?, hv]
      exact (if_pos hin).symm
    · have hlive' : ((g.dropThrough oldUppers q).unbind q v).LiveReference q :=
        hlive.of_place (view_unbind placeView)
      rw [heq, resolved_resolveAlong hlive'.1, if_pos rfl, resolved_unbind hlive.1, if_pos rfl,
        or_none, rebound?, hv]
      simp only [declared_congr (view_unbind declView), if_neg hout]
  · rw [if_neg hq]
    exact (rerouteReference_other oldUppers path hr hq).1

/-- References that are rerouted one after another do not get into each other's way. -/
theorem rerouteAll_frame (oldUppers path : List ScopeId) {rs : List ReferenceId} (hnodup : rs.Nodup)
    (hrs : ∀ r ∈ rs, g.LiveReference r) :
    (rs.foldl (rerouteReference oldUppers path) g).skeleton = g.skeleton ∧
      ∀ q, ((rs.foldl (rerouteReference oldUppers path) g).referenceAt q).resolved =
        if q ∈ rs then g.rebound? path q else (g.referenceAt q).resolved := by
  induction rs generalizing g with
  | nil => simp
  | cons r rs ih =>
    obtain ⟨hnotin, hnodup⟩ := nodup_cons.mp hnodup
    have hr := hrs r mem_cons_self
    have hskel : (rerouteReference oldUppers path g r).skeleton = g.skeleton :=
      view_rerouteReference skeleton ..
    have hrs' : ∀ q ∈ rs, (rerouteReference oldUppers path g r).LiveReference q := by
      rw [liveReference_congr (place_of_skeleton hskel)]
      exact fun q hq => hrs q (mem_cons_of_mem _ hq)
    obtain ⟨hrest, hres⟩ := ih hnodup hrs'
    refine ⟨hrest.trans hskel, fun q => ?_⟩
    rw [foldl_cons, hres]
    by_cases hq : q ∈ rs
    · have hqr : q ≠ r := fun he => hnotin (he ▸ hq)
      rw [if_pos hq, if_pos (mem_cons_of_mem _ hq), rebound_congr hskel]
      rw [resolved_rerouteReference hr, if_neg hqr]
    · rw [if_neg hq, resolved_rerouteReference hr]
      by_cases hqr : q = r <;> simp [hq, hqr]

end Reroute

/-! The merged graph. -/

section Merged

variable {start : ScopeGraph} {v : VariableId}

theorem markView_of_skeleton (h : g'.skeleton = g.skeleton) : g'.markView = g.markView := by
  funext r
  have href := congrArg (fun x => { x.referenceAt r with source := 0 }) h
  simp only [referenceAt_skeleton] at href
  exact href

theorem reference_congr {s : ScopeId} (h : g'.markView = g.markView)
    (hs : (g'.referenceAt r).source = s) :
    g'.referenceAt r =
      { g.referenceAt r with source := s, resolved := (g'.referenceAt r).resolved } := by
  subst hs
  have hmark := congrFun h r
  simp only [markView, Reference.mk.injEq] at hmark
  obtain ⟨hident, hname, -, -, haccess, hinit, hvirtual, hrem⟩ := hmark
  dsimp only
  rw [← hident, ← hname, ← haccess, ← hinit, ← hvirtual, ← hrem]

/-- A scope that has handed over everything is gone, and `rs` are bound as they are seen from
`dst`. -/
structure Withdrawn (start g' : ScopeGraph) (src dst : ScopeId) (rs : List ReferenceId) : Prop where
  live : ∀ t, g'.LiveScope t ↔ start.LiveScope t ∧ t ≠ src
  upper : ∀ t, (g'.scopeAt t).upper = (start.scopeAt t).upper
  children : ∀ {t}, start.LiveScope t → (g'.scopeAt t).children =
    (start.scopeAt t).children.filter (· != src)
  declarations : g'.declView = start.declView
  places : g'.placeView = start.placeView
  marks : g'.markView = start.markView
  bare : ∀ v, (g'.variableAt v).bare = (start.variableAt v).bare
  resolved : ∀ r, (g'.referenceAt r).resolved =
    if r ∈ rs then start.rebound? (start.ancestors dst) r else (start.referenceAt r).resolved
  ancestors : ∀ s, g'.ancestors s = start.ancestors s

theorem Merging.withdrawn (hm : Merging g start settled src dst) (h : g.WellFormed settled) :
    Withdrawn start (((g.scopeAt src).through.foldl
      (rerouteReference ((start.ancestors src).drop 1) (start.ancestors dst)) start).detachScope src) src dst
      (g.scopeAt src).through := by
  have hs : g.LiveScope src := hm.absorbed.source
  have hwell := hm.flow.rerouteAll (h.through.nodup hs) hm.rerouted rfl
  obtain ⟨hskel, hres⟩ := rerouteAll_frame ((start.ancestors src).drop 1) (start.ancestors dst)
    (h.through.nodup hs) fun r hr => (hm.rerouted r hr).live
  generalize (g.scopeAt src).through.foldl
    (rerouteReference ((start.ancestors src).drop 1) (start.ancestors dst))
    start = routed at hwell hskel hres ⊢
  have htree := tree_of_skeleton hskel
  have hlive := liveScope_congr htree
  have hsrc : routed.LiveScope src := by
    rw [hlive, hm.live]
    exact hs
  have hret := Retired.detachScope hwell.tree hsrc
  have hscope := scopeAt_detachScope hwell.tree hsrc
  refine ⟨?_, ?_, ?_, ?_, ?_, ?_, ?_, ?_, ?_⟩
  · intro t
    rw [hret.live, hlive]
  · intro t
    rw [upper_detachScope hwell.tree hsrc, upper_congr htree]
  · intro t ht
    rw [hscope, ← children_congr htree]
    split
    · rfl
    · rename_i hup
      symm
      rw [filter_eq_self]
      intro c hc
      have hcs : c ≠ src := by
        rintro rfl
        exact hup ((hwell.tree.mem_children (hlive ▸ ht)).mp hc).2
      simpa using hcs
  · rw [← declaration_of_skeleton hskel]
    simp only [declView, hret.vars, hret.variableAt_eq, hscope]
  · rw [← place_of_skeleton hskel]
    simp only [placeView, hret.references, hret.referenceAt_eq, hscope]
  · rw [← markView_of_skeleton hskel]
    funext r
    simp only [markView, hret.referenceAt_eq]
  · intro v
    rw [hret.variableAt_eq]
    simpa only [variableAt_skeleton, Variable.bare] using congrArg (·.variableAt v) hskel
  · intro r
    rw [hret.referenceAt_eq, hres]
  · intro s
    rw [ancestors_congr size_detachScope (upper_detachScope hwell.tree hsrc),
      ancestors_congr_tree htree]

theorem successor_of_ne (h : (g.variableAt v).scope ≠ src) : g.successor src dst v = v := if_neg h

/-- The references that flow out of a scope: made below it, and free or bound above it. -/
theorem WellFormed.flows_out_iff (h : g.WellFormed settled) (hs : g.LiveScope src)
    (hr : g.LiveReference r) :
    r ∈ (g.scopeAt src).through ↔ settled r ∧ g.Below (g.referenceAt r).source src ∧
      ∀ v, (g.referenceAt r).resolved = some v → g.Below src (g.variableAt v).scope ∧
        src ≠ (g.variableAt v).scope := by
  rw [(h.flow hr id).mem_through hs, PassesThrough]
  simp only [owner?, map_eq_some_iff, forall_exists_index, and_imp, forall_apply_eq_imp_iff₂]

section Bound

variable (hi : Inherited g start src dst) (hr : g.LiveReference r)
  (hv : (g.referenceAt r).resolved = some v) (hscope : (g.variableAt v).scope ≠ src)

include hi hr hv hscope

theorem Inherited.resolved_of_ne : (start.referenceAt r).resolved = some v := by
  rw [hi.resolved hr, hv, map_some, successor_of_ne hscope]

/-- A variable that is not in `src` is in sight of `dst` as it was. -/
theorem Merging.mem_ancestors_bound (hm : Merging g start settled src dst) :
    (start.variableAt v).scope ∈ start.ancestors dst ↔ g.Below dst (g.variableAt v).scope := by
  have howner := hm.handed.owner hr
  simp only [owner?, hi.resolved_of_ne hr hv hscope, hv, map_some, redirect_of_ne hscope] at howner
  rw [some.inj howner, hm.flow.tree.mem_ancestors hm.absorbed.live_destination,
    hm.absorbed.below_outside hm.absorbed.destination hm.absorbed.outside]

end Bound

namespace Withdrawn

section

variable (hw : Withdrawn start g' src dst (g.scopeAt src).through)

include hw

theorem resolved_kept (hi : Inherited g start src dst) (hr : g.LiveReference r)
    (hthrough : r ∉ (g.scopeAt src).through) :
    (g'.referenceAt r).resolved = (g.referenceAt r).resolved.map (g.successor src dst) := by
  rw [hw.resolved, if_neg hthrough, hi.resolved hr]

theorem findVariable_eq (s : ScopeId) (n : String) :
    g'.findVariable s n = start.findVariable s n := by
  simp only [findVariable, hw.ancestors, declared_congr hw.declarations]

/-- A variable that `dst` sees is kept. -/
theorem resolved_seen (hm : Merging g start settled src dst) (hi : Inherited g start src dst)
    (hr : g.LiveReference r)
    (hv : (g.referenceAt r).resolved = some v) (hseen : g.Below dst (g.variableAt v).scope) :
    (g'.referenceAt r).resolved = some v := by
  have hscope : (g.variableAt v).scope ≠ src := fun he => hm.absorbed.outside (he ▸ hseen)
  have hstart := hi.resolved_of_ne hr hv hscope
  rw [hw.resolved]
  split
  · rw [rebound?, hstart]
    exact if_pos ((Merging.mem_ancestors_bound hi hr hv hscope hm).mpr hseen)
  · exact hstart

/-- A reference that flows out of `src` and has no variable that `dst` sees is looked up from
`dst`. -/
theorem resolved_anew (hm : Merging g start settled src dst) (hi : Inherited g start src dst)
    (hr : g.LiveReference r)
    (hthrough : r ∈ (g.scopeAt src).through) (hlost : ∀ v, (g.referenceAt r).resolved = some v →
      (g.variableAt v).scope ≠ src ∧ ¬ g.Below dst (g.variableAt v).scope) :
    (g'.referenceAt r).resolved = g'.findVariable dst (g.referenceAt r).name := by
  have hname : (start.referenceAt r).name = (g.referenceAt r).name :=
    congrArg (fun x => (x r).1) hi.written
  rw [hw.resolved, if_pos hthrough, hw.findVariable_eq, ← hname]
  cases hv : (g.referenceAt r).resolved with
  | none =>
    have hstart : (start.referenceAt r).resolved = none := by
      rw [hi.resolved hr, hv, map_none]
    rw [rebound?, hstart]
    rfl
  | some v =>
    obtain ⟨hscope, hunseen⟩ := hlost v hv
    rw [rebound?, hi.resolved_of_ne hr hv hscope]
    exact if_neg fun hmem => hunseen ((Merging.mem_ancestors_bound hi hr hv hscope hm).mp hmem)

end

variable (hw : Withdrawn start g' src dst (g.scopeAt src).through)
  (hm : Merging g start settled src dst) (hi : Inherited g start src dst) (h : g.WellFormed settled)

include hw hm

theorem children_eq {t : ScopeId} (ht : g'.LiveScope t) : (g'.scopeAt t).children =
    (g.scopeAt t).children.filter (· != src) ++ if t = dst then (g.scopeAt src).children
      else [] := by
  have htree := hm.absorbed.tree
  obtain ⟨hstart, hts⟩ := (hw.live t).mp ht
  rw [hw.children hstart, hm.children]
  by_cases htd : t = dst
  · have hself : ∀ c ∈ (g.scopeAt src).children, (c != src) = true := by
      intro c hc
      have hup := ((htree.mem_children hm.absorbed.source).mp hc).2
      rw [bne_iff_ne]
      rintro rfl
      exact htree.not_below_of_up hm.absorbed.source hup .refl
    rw [if_pos htd, if_pos htd, filter_append, filter_eq_self.mpr hself]
  · rw [if_neg htd, if_neg hts, if_neg htd, append_nil]

include hi h

variable (hr : g.LiveReference r)

include hr

theorem resolved_outside (hnot : ¬ g.Below (g.referenceAt r).source src) :
    (g'.referenceAt r).resolved = (g.referenceAt r).resolved := by
  have hthrough : r ∉ (g.scopeAt src).through := fun hmem =>
    hnot ((h.flows_out_iff hm.absorbed.source hr).mp hmem).2.1
  rw [hw.resolved_kept hi hr hthrough]
  cases hv : (g.referenceAt r).resolved with
  | none => rfl
  | some v =>
    have hscope : (g.variableAt v).scope ≠ src := fun he =>
      hnot ((h.flow hr id).below_owner (by rw [owner?, hv, map_some, he]))
    rw [map_some, successor_of_ne hscope]

/-- A reference to a variable of `src` has the variable of that name in `dst` then. -/
theorem resolved_own (hv : (g.referenceAt r).resolved = some v)
    (hscope : (g.variableAt v).scope = src) :
    ∃ w, (g'.referenceAt r).resolved = some w ∧ g'.declared? dst (g.variableAt v).name =
      some w := by
  have hs := hm.absorbed.source
  have hthrough : r ∉ (g.scopeAt src).through := fun hmem =>
    (((h.flows_out_iff hs hr).mp hmem).2.2 v hv).2 hscope.symm
  have hvars : v ∈ (g.scopeAt src).vars :=
    (h.declarations.mem_vars hs).mpr ⟨h.bindings.bound_live hr hv, hscope⟩
  have hself := (h.declarations.declared_iff hs).mpr ⟨hvars, rfl⟩
  refine ⟨g.heir dst v, ?_, ?_⟩
  · rw [hw.resolved_kept hi hr hthrough, hv, map_some, successor, if_pos hscope]
  · rw [declared_congr hw.declarations, hi.declared hm.absorbed.ne, if_pos rfl, hself, heir]
    cases g.declared? dst (g.variableAt v).name <;> rfl

theorem resolved_inner (hv : (g.referenceAt r).resolved = some v)
    (hin : g.Below (g.variableAt v).scope src)
    (hscope : (g.variableAt v).scope ≠ src) : (g'.referenceAt r).resolved = some v := by
  have hs := hm.absorbed.source
  have hthrough : r ∉ (g.scopeAt src).through := by
    intro hmem
    obtain ⟨habove, hne⟩ := ((h.flows_out_iff hs hr).mp hmem).2.2 v hv
    exact hne (h.tree.below_antisymm hs habove hin)
  rw [hw.resolved_kept hi hr hthrough, hv, map_some, successor_of_ne hscope]

theorem resolved_outflow (hsettled : settled r) (hin : g.Below (g.referenceAt r).source src)
    (hlost : ∀ v, (g.referenceAt r).resolved = some v →
      ¬ g.Below (g.variableAt v).scope src ∧ ¬ g.Below dst (g.variableAt v).scope) :
    (g'.referenceAt r).resolved = g'.findVariable dst (g.referenceAt r).name := by
  -- The scope of its variable is above the scope of the reference, as `src` is, and not below `src`.
  have habove : ∀ v, (g.referenceAt r).resolved = some v →
      g.Below src (g.variableAt v).scope ∧ src ≠ (g.variableAt v).scope := by
    intro v hv
    have howner : g.Below (g.referenceAt r).source (g.variableAt v).scope :=
      (h.flow hr id).below_owner (by rw [owner?, hv, map_some])
    refine ⟨(below_total hin howner).resolve_right (hlost v hv).1, fun he => ?_⟩
    exact (hlost v hv).1 (he ▸ .refl)
  have hthrough := (h.flows_out_iff hm.absorbed.source hr).mpr ⟨hsettled, hin, habove⟩
  exact hw.resolved_anew hm hi hr hthrough fun v hv => ⟨(habove v hv).2.symm, (hlost v hv).2⟩

theorem resolved_unsettled (hnot : ¬ settled r) : (g'.referenceAt r).resolved = none := by
  have hthrough : r ∉ (g.scopeAt src).through := fun hmem =>
    hnot ((h.flows_out_iff hm.absorbed.source hr).mp hmem).1
  rw [hw.resolved_kept hi hr hthrough, WellFormedBut.free_of_not_settled h hr id hnot, map_none]

end Withdrawn

/-- `g'` is `g` with `src` merged into `dst`. -/
structure Merged (g g' : ScopeGraph) (settled : ReferenceId → Prop) (src dst : ScopeId) : Prop where
  wellFormed : g'.WellFormed settled
  liveScope : ∀ t, g'.LiveScope t ↔ g.LiveScope t ∧ t ≠ src
  upper : ∀ {t}, g'.LiveScope t → (g'.scopeAt t).upper = (g.scopeAt t).upper.map (redirect src dst)
  children : ∀ {t}, g'.LiveScope t → (g'.scopeAt t).children =
    (g.scopeAt t).children.filter (· != src) ++ if t = dst then (g.scopeAt src).children else []
  gathered : Gathered g g' dst (g.scopeAt src).vars
  references : (g'.scopeAt dst).references = (g.scopeAt dst).references ++
    (g.scopeAt src).references
  liveReference : g'.LiveReference = g.LiveReference
  /-- Only the scope and the binding of a reference may change. -/
  record : ∀ {r}, g.LiveReference r → g'.referenceAt r =
    { g.referenceAt r with
      source := redirect src dst (g.referenceAt r).source
      resolved := (g'.referenceAt r).resolved }
  outside : ∀ {r}, g.LiveReference r → ¬ g.Below (g.referenceAt r).source src →
    g'.referenceAt r = g.referenceAt r
  own : ∀ {r v}, g.LiveReference r → (g.referenceAt r).resolved = some v →
    (g.variableAt v).scope = src →
    ∃ w, (g'.referenceAt r).resolved = some w ∧ g'.declared? dst (g.variableAt v).name = some w
  inner : ∀ {r v}, g.LiveReference r → (g.referenceAt r).resolved = some v →
    g.Below (g.variableAt v).scope src → (g.variableAt v).scope ≠ src →
      (g'.referenceAt r).resolved = some v
  seen : ∀ {r v}, g.LiveReference r → (g.referenceAt r).resolved = some v →
    g.Below dst (g.variableAt v).scope → (g'.referenceAt r).resolved = some v
  outflow : ∀ {r}, g.LiveReference r → settled r → g.Below (g.referenceAt r).source src →
    (∀ v, (g.referenceAt r).resolved = some v →
      ¬ g.Below (g.variableAt v).scope src ∧ ¬ g.Below dst (g.variableAt v).scope) →
    (g'.referenceAt r).resolved = g'.findVariable dst (g.referenceAt r).name
  unsettled : ∀ {r}, g.LiveReference r → ¬ settled r → (g'.referenceAt r).resolved = none

end Merged

end ScopeGraph

open ScopeGraph ScopeStep

/-- Merging a scope into another one that is not below it hands over all it has, and binds what
flowed out of it as it is seen from there. -/
theorem mergeScope_merged {g : ScopeGraph} {settled : ReferenceId → Prop} {src dst : ScopeId}
    (h : g.WellFormed settled) (hs : g.LiveScope src) (hd : g.LiveScope dst)
    (hout : ¬ g.Below dst src) : Merged g (g.mergeScope src dst) settled src dst := by
  have hne : dst ≠ src := fun he => hout (he ▸ .refl)
  have hwell := h.mergeScope hs hd hout
  have hm := h.merging hs hd hout
  have hi := h.inherited_mergeStart hs hd hout
  have hgathered := h.gathered_mergeStart hs hd hne
  have hrefs := references_mergeStart hs hd hne
  have hmarks : (g.mergeStart src dst).markView = g.markView := markView_mergeStart
  have hw := hm.withdrawn h
  rw [← mergeScope_eq_detachScope] at hw
  generalize g.mergeScope src dst = g' at hwell hw ⊢
  have hrecord : ∀ {r}, g.LiveReference r → g'.referenceAt r =
      { g.referenceAt r with
        source := redirect src dst (g.referenceAt r).source
        resolved := (g'.referenceAt r).resolved } := by
    intro r hr
    refine reference_congr (hw.marks.trans hmarks) ?_
    rw [source_congr hw.places, hi.source hr]
  exact
    { wellFormed := hwell
      liveScope := by
        intro t
        rw [hw.live, hm.live]
      upper := by
        intro t ht
        rw [hw.upper, hm.absorbed.upper ((hw.live t).mp ht).1]
      children := hw.children_eq hm
      gathered := hgathered.congr rfl (fun _ => rfl) rfl (liveVariable_congr hw.declarations) hw.bare
        (vars_congr hw.declarations dst)
      references := by rw [references_congr hw.places, hrefs]
      liveReference := (liveReference_congr hw.places).trans hi.live
      record := hrecord
      outside := by
        intro r hr hnot
        have hsrc : (g.referenceAt r).source ≠ src := fun he => hnot (he ▸ .refl)
        rw [hrecord hr, hw.resolved_outside hm hi h hr hnot, redirect_of_ne hsrc]
      own := hw.resolved_own hm hi h
      inner := hw.resolved_inner hm hi h
      seen := hw.resolved_seen hm hi
      outflow := hw.resolved_outflow hm hi h
      unsettled := hw.resolved_unsettled hm hi h }

/-- Two functions side by side, and in the first one a block with another block in it. The inner
block uses `x` and `y` of the outer one, `a` of the program, and `b` of the first function, which
the program declares too. The outer block uses `z`, which only the second function declares, as it
does another `x`. -/
def siblingRun : List ScopeStep :=
  [.addScope .global 0 none, .addScope .function 1 (some 0), .addScope .block 2 (some 1),
    .addScope .function 3 (some 0), .addScope .block 4 (some 2),
    .declare 0 "a" 5 .variable, .declare 0 "b" 6 .variable, .declare 1 "b" 7 .variable,
    .declare 2 "x" 8 .variable,
    .declare 2 "y" 9 .variable, .declare 3 "x" 10 .variable, .declare 3 "z" 11 .variable,
    .addReference 4 12 "x" .read false, .resolve 0, .addReference 4 13 "y" .write false, .resolve 1,
    .addReference 4 14 "a" .read false, .resolve 2, .addReference 4 15 "b" .read false, .resolve 3,
    .addReference 2 16 "z" .read false, .resolve 4, .addReference 1 17 "b" .read false, .resolve 5]

/-- The outer block is merged into the second function. -/
theorem mergeScope_merged_siblings :
    let g := run default siblingRun .empty
    let g' := g.mergeScope 2 3
    g.WellFormed (fun _ => True) ∧ g.LiveScope 2 ∧ g.LiveScope 3 ∧ ¬ g.Below 3 2 ∧
      g.liveReferences.map (fun r => (g.referenceAt r).resolved) =
        [some 3, some 4, some 0, some 2, none, some 2] ∧
      ¬ g'.LiveScope 2 ∧ (g'.scopeAt 3).children = [4] ∧ (g'.scopeAt 3).vars = [5, 6, 4] ∧
      (g'.variableAt 5).bare = (g.variableAt 5).join 3 [g.variableAt 3] ∧
      (g'.referenceAt 0).resolved = some 5 ∧ (g'.referenceAt 1).resolved = some 4 ∧
      (g'.referenceAt 2).resolved = some 0 ∧ (g'.referenceAt 3).resolved = some 1 ∧
      (g'.referenceAt 4).resolved = some 6 ∧ g'.referenceAt 5 = g.referenceAt 5 := by
  intro g g'
  have hwell : g.WellFormed fun _ => True := .of_run (by decide +kernel) (by decide +kernel)
  have hs : g.LiveScope 2 := by decide +kernel
  have hd : g.LiveScope 3 := by decide +kernel
  have hbelow : ∀ {s t}, g.LiveScope s → (t ∈ g.ancestors s ↔ g.Below s t) :=
    hwell.tree.mem_ancestors
  have hout : ¬ g.Below 3 2 := by
    rw [← hbelow hd]
    decide +kernel
  have hm : Merged g g' (fun _ => True) 2 3 := mergeScope_merged hwell hs hd hout
  have hin : ∀ r ∈ [3, 4], g.Below (g.referenceAt r).source 2 := by
    intro r hr
    rw [← hbelow (hwell.places.source_live (by revert r; decide +kernel))]
    revert r
    decide +kernel
  refine ⟨hwell, hs, hd, hout, by decide +kernel, ?_, ?_, ?_, ?_, ?_, ?_, ?_, ?_, ?_, ?_⟩
  · rw [hm.liveScope]
    exact fun hc => hc.2 rfl
  · rw [hm.children ((hm.liveScope 3).mpr ⟨hd, by decide⟩)]
    decide +kernel
  · rw [hm.gathered.vars]
    decide +kernel
  · have hnamesakes : g.namesakes 3 (g.scopeAt 2).vars 5 = [3] := by decide +kernel
    have hscope : (if 5 ∈ (g.scopeAt 2).vars then 3 else (g.variableAt 5).scope) = 3 := by decide +kernel
    rw [hm.gathered.record ((hm.gathered.live 5).mpr (by decide +kernel)), hnamesakes, hscope]
    rfl
  · obtain ⟨w, hw, hdecl⟩ :=
      hm.own (r := 0) (v := 3) (by decide +kernel) (by decide +kernel) (by decide +kernel)
    rw [hw, ← hdecl]
    decide +kernel
  · obtain ⟨w, hw, hdecl⟩ :=
      hm.own (r := 1) (v := 4) (by decide +kernel) (by decide +kernel) (by decide +kernel)
    rw [hw, ← hdecl]
    decide +kernel
  · exact hm.seen (by decide +kernel) (by decide +kernel) ((hbelow hd).mp (by decide +kernel))
  · have hbound : (g.referenceAt 3).resolved = some 2 := by decide +kernel
    rw [hm.outflow (by decide +kernel) trivial (hin 3 (by decide)) fun v hv => ?_]
    · decide +kernel
    · obtain rfl := some.inj (hbound.symm.trans hv)
      rw [← hbelow (by decide +kernel), ← hbelow hd]
      decide +kernel
  · have hfree : (g.referenceAt 4).resolved = none := by decide +kernel
    rw [hm.outflow (by decide +kernel) trivial (hin 4 (by decide)) fun v hv => ?_]
    · decide +kernel
    · cases hfree.symm.trans hv
  · refine hm.outside (by decide +kernel) ?_
    rw [← hbelow (by decide +kernel)]
    decide +kernel

end Loom
