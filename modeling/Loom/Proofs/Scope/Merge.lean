import Loom.Proofs.Scope.Dissolve

/-!
Merging a scope into another one that is not below it.

The children, the variables and the references go first. What flowed out of the scope then has
another way upward and is rerouted along it, one reference after the other.
-/

open List

namespace Loom.ScopeGraph

open IgnoresDecls IgnoresTree

variable {β : Type} {base src dst : ScopeId} {g : ScopeGraph} {settled open_ : ReferenceId → Prop}

/-! Finding a new place for a reference. -/

section Reroute

variable {r q : ReferenceId} {v : VariableId}

/-- The graph with a bound reference made free; its flow is left open. -/
def unbind (g : ScopeGraph) (r : ReferenceId) (v : VariableId) : ScopeGraph :=
  (g.dropBound r (some v)).modifyReference r ({ · with resolved := none })

theorem view_unbind (view : ScopeGraph → β) [IgnoresBindings view] : view (g.unbind r v) = view g :=
  IgnoresBindings.resolved.trans (view_dropBound view)

theorem resolved_unbind (hr : r < g.references.size) :
    ((g.unbind r v).referenceAt q).resolved = if q = r then none
      else (g.referenceAt q).resolved := by
  have hget : (g.unbind r v).referenceAt q =
      (g.modifyReference r ({ · with resolved := none })).referenceAt q := rfl
  rw [hget, referenceAt_modifyReference]
  by_cases hq : q = r <;> simp [hq, hr]

theorem BindingLinks.unbind (h : g.BindingLinks) (hr : g.LiveReference r)
    (hv : (g.referenceAt r).resolved = some v) : (g.unbind r v).BindingLinks := by
  refine ⟨?_, ?_⟩
  · intro w q
    have hlist : ((g.unbind r v).variableAt w).references =
        ((g.dropBound r (some v)).variableAt w).references := rfl
    rw [hlist, mem_bound_dropBound, liveReference_congr (view_unbind placeView),
      resolved_unbind hr.1, h.mem_references]
    by_cases hq : q = r
    · subst hq
      simp [hv]
    · simp [hq]
  · intro q w
    rw [liveReference_congr (view_unbind placeView), resolved_unbind hr.1,
      liveVariable_congr (view_unbind declView)]
    intro hq hw
    split at hw
    · cases hw
    · exact h.bound_live hq hw

theorem WellFormedBut.unbind (h : g.WellFormedBut settled open_) (hr : g.LiveReference r)
    (hv : (g.referenceAt r).resolved = some v) (hopen : open_ r) :
    (g.unbind r v).WellFormedBut settled open_ := by
  refine h.of_views (view_unbind treeView) (view_unbind declView) (view_unbind placeView)
    (h.bindings.unbind hr hv)
    (h.through.congr (view_unbind treeView) (view_unbind placeView) (view_unbind throughView)) ?_
      fun _ _ _ => Iff.rfl
  intro q hnot
  have hne : q ≠ r := fun he => hnot (he ▸ hopen)
  rw [resolved_unbind hr.1, if_neg hne]

variable {oldUppers path : List ScopeId}

theorem rerouteReference_cases {dropped : ScopeGraph} (path : List ScopeId)
    (hdrop : g.dropThrough oldUppers r = dropped) (hr : dropped.LiveReference r) :
    ((dropped.referenceAt r).resolved = none ∧ rerouteReference oldUppers path g r =
      (dropped.resolveAlong r (dropped.referenceAt r).name path).2) ∨
    ∃ v, (dropped.referenceAt r).resolved = some v ∧
      (((dropped.variableAt v).scope ∈ path ∧ rerouteReference oldUppers path g r =
        (path.takeWhile (· != (dropped.variableAt v).scope)).foldl (·.addThrough · r) dropped) ∨
      ((dropped.variableAt v).scope ∉ path ∧ rerouteReference oldUppers path g r =
        ((dropped.unbind r v).resolveAlong r (dropped.referenceAt r).name path).2)) := by
  unfold rerouteReference
  rw [hdrop]
  rw [if_neg (by simpa using hr.2)]
  cases (dropped.referenceAt r).resolved with
  | none => exact .inl ⟨rfl, rfl⟩
  | some v =>
    refine .inr ⟨v, rfl, ?_⟩
    by_cases hmem : (dropped.variableAt v).scope ∈ path
    · refine .inl ⟨hmem, ?_⟩
      simp only [contains_eq_mem, hmem, decide_true, if_true]
    · refine .inr ⟨hmem, ?_⟩
      simp only [contains_eq_mem, hmem, decide_false, Bool.false_eq_true, if_false]
      rfl

/-- A look-up touches no other reference. -/
theorem resolveAlong_other (name : String) (path : List ScopeId) (hr : r < g.references.size)
    (hq : q ≠ r) :
    ((g.resolveAlong r name path).2.referenceAt q).resolved = (g.referenceAt q).resolved ∧
      ∀ t, q ∈ ((g.resolveAlong r name path).2.scopeAt t).through ↔ q ∈ (g.scopeAt t).through := by
  rcases resolveAlong_cases g r name path with ⟨-, heq⟩ | ⟨pre, s, post, v, -, -, heq⟩
  · rw [heq]
    refine ⟨resolved_congr (view_addThroughs bindingView) q, fun t => ?_⟩
    simp [mem_addThroughs, hq]
  · have hsize : (pre.foldl (·.addThrough · r) g).references.size = g.references.size :=
      congrArg Prod.fst (view_addThroughs placeView)
    rw [heq]
    refine ⟨?_, fun t => ?_⟩
    · rw [resolved_link (hsize ▸ hr), if_neg hq, resolved_congr (view_addThroughs bindingView)]
    · rw [through_congr (view_link throughView), mem_addThroughs]
      simp [hq]

/-- Rerouting a reference touches no other one. -/
theorem rerouteReference_other (oldUppers path : List ScopeId) (hr : g.LiveReference r)
    (hq : q ≠ r) :
    ((rerouteReference oldUppers path g r).referenceAt q).resolved = (g.referenceAt q).resolved ∧
      ∀ t, q ∈ ((rerouteReference oldUppers path g r).scopeAt t).through ↔ q ∈ (g.scopeAt t).through := by
  have hlive : (g.dropThrough oldUppers r).LiveReference r :=
    hr.of_place (view_dropThrough placeView)
  have hbound : ((g.dropThrough oldUppers r).referenceAt q).resolved = (g.referenceAt q).resolved :=
    resolved_congr (view_dropThrough bindingView) q
  have hthrough : ∀ t, q ∈ ((g.dropThrough oldUppers r).scopeAt t).through ↔
      q ∈ (g.scopeAt t).through := fun t => by
    simp [mem_dropThrough, hq]
  rcases rerouteReference_cases path rfl hlive with ⟨-, heq⟩ | ⟨v, hv, ⟨-, heq⟩ | ⟨-, heq⟩⟩ <;>
    rw [heq]
  · obtain ⟨hres, hmem⟩ := resolveAlong_other _ path hlive.1 hq
    exact ⟨hres.trans hbound, fun t => (hmem t).trans (hthrough t)⟩
  · refine ⟨(resolved_congr (view_addThroughs bindingView) q).trans hbound, fun t => ?_⟩
    simp [mem_addThroughs, hthrough, hq]
  · have hlive' : ((g.dropThrough oldUppers r).unbind r v).LiveReference r :=
      hlive.of_place (view_unbind placeView)
    obtain ⟨hres, hmem⟩ := resolveAlong_other _ path hlive'.1 hq
    refine ⟨?_, fun t => (hmem t).trans (hthrough t)⟩
    rw [hres, resolved_unbind hlive.1, if_neg hq, hbound]

/-- A reference that passes just through the scopes below `base`, once `oldUppers` have let it go,
is settled by rerouting it from there. -/
theorem WellFormedBut.reroute (h : g.WellFormedBut settled fun q => open_ q ∨ q = r)
    (hr : g.LiveReference r) (hset : settled r) (hbase : g.Below (g.referenceAt r).source base)
    (hth : ∀ {t}, g.LiveScope t → (r ∈ (g.scopeAt t).through ∧ t ∉ oldUppers ↔
      g.Below (g.referenceAt r).source t ∧ g.Below t base ∧ t ≠ base)) :
    (rerouteReference oldUppers (g.ancestors base) g r).WellFormedBut settled open_ := by
  have hdropped := h.dropThrough oldUppers (.inr rfl)
  generalize hdrop : g.dropThrough oldUppers r = dropped at hdropped
  have htree : dropped.treeView = g.treeView := hdrop ▸ view_dropThrough treeView
  have hplace : dropped.placeView = g.placeView := hdrop ▸ view_dropThrough placeView
  have hlive := liveReference_congr hplace ▸ hr
  have hbase' : dropped.Below (dropped.referenceAt r).source base := by
    rw [below_congr_tree htree, source_congr hplace]
    exact hbase
  have hth' : ∀ {t}, dropped.LiveScope t → (r ∈ (dropped.scopeAt t).through ↔
      dropped.Below (dropped.referenceAt r).source t ∧ dropped.Below t base ∧ t ≠ base) := by
    intro t
    rw [liveScope_congr htree, below_congr_tree htree, source_congr hplace, ← hdrop,
      mem_dropThrough]
    intro ht
    rw [← hth ht]
    simp
  rw [← ancestors_congr_tree htree]
  rcases rerouteReference_cases (dropped.ancestors base) hdrop hlive with
    ⟨hfree, heq⟩ | ⟨v, hv, ⟨hmem, heq⟩ | ⟨-, heq⟩⟩
  · rw [heq]
    exact hdropped.resolveAlong _ hlive hfree hset hbase' hth'
  · rw [heq]
    have hbaselive := hdropped.tree.live_of_below (hdropped.places.source_live hlive) hbase'
    have hbo : dropped.Below base (dropped.variableAt v).scope :=
      (hdropped.tree.mem_ancestors hbaselive).mp hmem
    refine (hdropped.addThroughs _ hlive (.inr rfl)).close fun _ => ?_
    generalize hpath : (dropped.ancestors base).takeWhile (· != (dropped.variableAt v).scope) = path
    have howner : (path.foldl (·.addThrough · r) dropped).owner? r = some (dropped.variableAt v).scope := by
      rw [owner_congr (view_addThroughs declView) (resolved_congr
        (view_addThroughs bindingView) r), owner?, hv, Option.map_some]
    refine .of_bound (view_addThroughs treeView) (source_congr (view_addThroughs placeView) r)
      howner hset (hbase'.trans hbo) fun ht => ?_
    rw [mem_addThroughs, hth' ht, ← hpath, (hdropped.tree.chain_ancestors hbaselive).mem_takeWhile
      hbo, ← hdropped.tree.between_append ht hbase' hbo]
    simp [ht.1]
  · rw [heq, ← ancestors_congr_tree (view_unbind treeView)]
    have hlive' : (dropped.unbind r v).LiveReference r := hlive.of_place (view_unbind placeView)
    have hfree : ((dropped.unbind r v).referenceAt r).resolved = none := by
      rw [resolved_unbind hlive.1, if_pos rfl]
    refine (hdropped.unbind hlive hv (.inr rfl)).resolveAlong _ hlive' hfree hset ?_ ?_
    · rw [source_congr (view_unbind placeView)]
      exact hbase'
    · intro t ht
      rw [source_congr (view_unbind placeView)]
      exact hth' ht

/-- A reference that is to be rerouted from `base`. -/
structure Rerouted (g : ScopeGraph) (settled : ReferenceId → Prop) (base : ScopeId)
    (oldUppers : List ScopeId) (r : ReferenceId) : Prop where
  live : g.LiveReference r
  settled : settled r
  below : g.Below (g.referenceAt r).source base
  through : ∀ {t}, g.LiveScope t → (r ∈ (g.scopeAt t).through ∧ t ∉ oldUppers ↔
    g.Below (g.referenceAt r).source t ∧ g.Below t base ∧ t ≠ base)

/-- Rerouting one reference leaves the others as they are. -/
theorem Rerouted.other (hq : g.Rerouted settled base oldUppers q) (hr : g.LiveReference r)
    (hne : q ≠ r) : (rerouteReference oldUppers path g r).Rerouted settled base oldUppers q := by
  have htree : (rerouteReference oldUppers path g r).treeView = g.treeView :=
    view_rerouteReference treeView ..
  have hplace : (rerouteReference oldUppers path g r).placeView = g.placeView :=
    view_rerouteReference placeView ..
  refine ⟨?_, hq.settled, ?_, ?_⟩
  · rw [liveReference_congr hplace]
    exact hq.live
  · rw [below_congr_tree htree, source_congr hplace]
    exact hq.below
  · intro t
    rw [liveScope_congr htree, below_congr_tree htree, source_congr hplace,
      (rerouteReference_other oldUppers path hr hne).2]
    exact hq.through

theorem WellFormedBut.rerouteAll {rs : List ReferenceId} (h : g.WellFormedBut settled (· ∈ rs))
    (hnodup : rs.Nodup)
    (hrs : ∀ r ∈ rs, g.Rerouted settled base oldUppers r) (hpath : path = g.ancestors base) :
    (rs.foldl (rerouteReference oldUppers path) g).WellFormed settled := by
  induction rs generalizing g with
  | nil => exact h.weaken fun _ _ => ⟨not_mem_nil, Iff.rfl⟩
  | cons r rs ih =>
    obtain ⟨hnotin, hnodup⟩ := nodup_cons.mp hnodup
    have hr := hrs r (by simp)
    have hopen : g.WellFormedBut settled fun q => q ∈ rs ∨ q = r :=
      h.weaken fun _ hq => ⟨fun hmem => hq (by simpa [or_comm] using hmem), Iff.rfl⟩
    have hstep := hopen.reroute hr.live hr.settled hr.below hr.through
    rw [← hpath] at hstep
    exact ih hstep hnodup
      (fun q hq => (hrs q (mem_cons_of_mem _ hq)).other hr.live fun he => hnotin (he ▸ hq))
      (hpath.trans (ancestors_congr_tree (view_rerouteReference treeView ..) base).symm)

end Reroute

/-! Merging a scope into another. -/

section Merge

variable {replacement : ScopeId} {cs : List ScopeId}

/-- Scopes put under another one, one after the other. -/
def handChildren (g : ScopeGraph) (src replacement dst : ScopeId) (cs : List ScopeId) :
    ScopeGraph :=
  cs.foldl (fun g c =>
    ((g.modifyScope c ({ · with upper := some dst })).modifyScope dst fun sc =>
      { sc with children := sc.children ++ [c] }).moveVariableScope c src replacement) g

theorem view_handChildren (view : ScopeGraph → β) [IgnoresTree view] :
    view (g.handChildren src replacement dst cs) = view g :=
  view_foldl view (fun _ _ => (view_moveVariableScope view fun _ _ _ => links).trans
    (links.trans links)) cs g

/-- The links that handing children over makes. -/
theorem links_handChildren (src replacement : ScopeId) (hd : dst < g.scopes.size)
    (hcs : ∀ c ∈ cs, c < g.scopes.size) (t : ScopeId) :
    ((g.handChildren src replacement dst cs).scopeAt t).upper =
      (if t ∈ cs then some dst else (g.scopeAt t).upper) ∧
      ((g.handChildren src replacement dst cs).scopeAt t).children =
        if t = dst then (g.scopeAt t).children ++ cs else (g.scopeAt t).children := by
  induction cs generalizing g with
  | nil => simp [handChildren]
  | cons c cs ih =>
    generalize hone : ((g.modifyScope c ({ · with upper := some dst })).modifyScope dst fun sc =>
      { sc with children := sc.children ++ [c] }).moveVariableScope c src replacement = one
    have hsize : one.scopes.size = g.scopes.size := by
      rw [← hone, size_congr treeView_moveVariableScope, size_modifyScope, size_modifyScope]
    have hupper : (one.scopeAt t).upper = if t = c then some dst else (g.scopeAt t).upper := by
      rw [← hone, upper_congr treeView_moveVariableScope,
        field_modifyScope (·.upper) fun _ => by rfl, scopeAt_modifyScope]
      by_cases ht : t = c <;> simp [ht, hcs c (by simp)]
    have hkids : (one.scopeAt t).children =
        if t = dst then (g.scopeAt t).children ++ [c] else (g.scopeAt t).children := by
      rw [← hone, children_congr treeView_moveVariableScope, scopeAt_modifyScope, size_modifyScope]
      by_cases ht : t = dst
      · subst ht
        rw [if_pos ⟨rfl, hd⟩, if_pos rfl]
        exact congrArg (· ++ [c]) (field_modifyScope (·.children) (fun _ => by rfl) ..)
      · rw [if_neg fun he => ht he.1, if_neg ht]
        exact field_modifyScope (·.children) (fun _ => by rfl) ..
    obtain ⟨ihu, ihc⟩ := ih (hsize ▸ hd) fun d hd' => hsize ▸ hcs d (mem_cons_of_mem _ hd')
    rw [handChildren, foldl_cons, ← handChildren, hone, ihu, ihc, hupper, hkids]
    constructor
    · by_cases ht : t = c <;> by_cases hmem : t ∈ cs <;> simp [ht, hmem]
    · by_cases ht : t = dst <;> simp [ht]

/-- The scopes strictly above a scope. -/
theorem Chain.mem_drop {s t : ScopeId} {l : List ScopeId} (h : g.Chain s l) :
    t ∈ l.drop 1 ↔ g.Below s t ∧ t ≠ s := by
  rw [← h.mem_iff]
  cases h with
  | top _ => simp
  | step hu hl =>
    have hne : t ∈ _ → t ≠ s := fun ht he => hl.notMem_of_up hu (he ▸ ht)
    simp only [drop_succ_cons, drop_zero, mem_cons]
    tauto

section Start

variable {start : ScopeGraph}

/-- When a scope has handed over all it has, only what flowed out of it is left open, and that is
ready to be rerouted from the scope that has it now. -/
theorem WellFormed.absorb (h : g.WellFormed settled) (ha : Absorbed g start src dst)
    (hover : HandedOver g start src dst) (hdecl : start.DeclarationLinks) (htree : start.TreeLinks)
    (hlive : start.LiveScope = g.LiveScope) (hsrc : (start.scopeAt src).through = []) :
    start.WellFormedBut settled (· ∈ (g.scopeAt src).through) ∧ ∀ r ∈ (g.scopeAt src).through,
        start.Rerouted settled dst ((start.ancestors src).drop 1) r := by
  have hthrough : ∀ {r t}, r ∈ (start.scopeAt t).through ↔ r ∈ (g.scopeAt t).through ∧ t ≠ src := by
    intro r t
    by_cases ht : t = src
    · simp [ht, hsrc]
    · simp [ht, hover.through ht]
  refine ⟨⟨htree, hdecl, hover.places, hover.bindings, ⟨?_, ?_⟩, ?_⟩, ?_⟩
  · intro t r
    rw [hlive, hthrough, hover.live]
    exact fun ht hr => h.through.live ht hr.1
  · intro t
    rw [hlive]
    intro ht
    by_cases hts : t = src
    · rw [hts, hsrc]
      exact nodup_nil
    · rw [hover.through hts]
      exact h.through.nodup ht
  · intro r
    rw [hover.live]
    intro hr hnot
    exact ha.flow_outside (h.places.source_live hr) (hover.source hr) (hover.owner hr)
      (fun _ => hthrough) (h.flow hr id) hnot
  · intro r hr
    have hrlive := h.through.live ha.source hr
    have hflow := h.flow hrlive id
    have hsource := h.places.source_live hrlive
    obtain ⟨hset, hin, hover_owner⟩ := (hflow.mem_through ha.source).mp hr
    refine ⟨hover.live ▸ hrlive, hset, ?_, ?_⟩
    · rw [hover.source hrlive]
      by_cases heq : (g.referenceAt r).source = src
      · rw [heq, redirect_self]
        exact .refl
      · rw [redirect_of_ne heq]
        exact (ha.below_inside hsource hin heq).mpr (.inr .refl)
    · intro t ht
      have ht' : g.LiveScope t := hlive ▸ ht
      rw [hover.source hrlive, ha.between_iff hsource hin ht, hthrough, hflow.mem_through ht',
        (htree.chain_ancestors (hlive ▸ ha.source)).mem_drop, ha.below_source (hlive ▸ ha.source)]
      constructor
      · rintro ⟨⟨⟨-, hst, -⟩, hne⟩, hnot⟩
        exact ⟨hst, (below_total hst hin).resolve_right fun hge => hnot ⟨hge, hne⟩, hne⟩
      · rintro ⟨hst, hts, hne⟩
        refine ⟨⟨⟨hset, hst, ?_⟩, hne⟩, ?_⟩
        · intro o ho
          obtain ⟨hso, hneo⟩ := hover_owner o ho
          refine ⟨hts.trans hso, ?_⟩
          rintro rfl
          exact hneo (h.tree.below_antisymm ha.source hso hts)
        · rintro ⟨hge, -⟩
          exact hne (h.tree.below_antisymm ht' hts hge)

end Start

theorem mergeScope_eq :
    g.mergeScope src dst = let moved :=
  (((((g.modifyScope src ({ · with children := [] })).handChildren src
        (g.scopeAt dst).variableScope dst (g.scopeAt src).children).takeVariables src dst
          ({ · with vars := [] })).modifyScope src ({ · with set := [] })).takeReferences src dst)
      ((moved.scopeAt src).through.foldl (rerouteReference ((moved.ancestors src).drop 1) (moved.ancestors dst))
        (moved.modifyScope src ({ · with through := [] }))).detachScope src :=
  rfl

/-- The children of `src` listed by `dst` and put under it. -/
theorem Absorbed.treeLinks_of_append {start : ScopeGraph} (ha : Absorbed g start src dst)
    (hlive : start.LiveScope = g.LiveScope) (hkids : ∀ t, (start.scopeAt t).children =
      if t = dst then (g.scopeAt t).children ++ (g.scopeAt src).children
      else if t = src then [] else (g.scopeAt t).children) : start.TreeLinks := by
  refine ha.treeLinks ?_ ?_
  · intro t ht
    have ht : g.LiveScope t := hlive ▸ ht
    rw [hkids]
    split
    · refine nodup_append.mpr ⟨ha.tree.children_nodup ht, ha.tree.children_nodup ha.source, ?_⟩
      rename_i htd
      rintro c hc d hd rfl
      have hct := ((ha.tree.mem_children ht).mp hc).2
      have hcs := ((ha.tree.mem_children ha.source).mp hd).2
      exact ha.ne (htd.symm.trans (upper_unique g hct hcs))
    · split
      · exact nodup_nil
      · exact ha.tree.children_nodup ht
  · intro t c ht
    have ht : g.LiveScope t := hlive ▸ ht
    rw [hkids, hlive]
    by_cases htd : t = dst
    · subst htd
      rw [if_pos rfl, mem_append, ha.tree.mem_children ht, ha.tree.mem_children ha.source]
      have hne := ha.ne
      tauto
    · by_cases hts : t = src
      · simp [hts, Ne.symm ha.ne]
      · simp [hts, htd, ha.tree.mem_children ht]

/-- The tree after the children of a scope have been handed to another one. -/
def mergeTree (g : ScopeGraph) (src dst : ScopeId) : ScopeGraph :=
  (g.modifyScope src ({ · with children := [] })).handChildren src (g.scopeAt dst).variableScope dst
    (g.scopeAt src).children

theorem view_mergeTree (view : ScopeGraph → β) [IgnoresTree view] :
    view (g.mergeTree src dst) = view g :=
  (view_handChildren view).trans links

theorem links_mergeTree (h : g.TreeLinks) (hs : g.LiveScope src) (hd : g.LiveScope dst)
    (hne : dst ≠ src) (t : ScopeId) :
    ((g.mergeTree src dst).scopeAt t).upper =
      (if t ∈ (g.scopeAt src).children then some dst else (g.scopeAt t).upper) ∧
      ((g.mergeTree src dst).scopeAt t).children =
        if t = dst then (g.scopeAt t).children ++ (g.scopeAt src).children
        else if t = src then [] else (g.scopeAt t).children := by
  have hd' : dst < (g.modifyScope src ({ · with children := [] })).scopes.size := by
    rw [size_modifyScope]
    exact hd.1
  have hcs : ∀ c ∈ (g.scopeAt src).children,
      c < (g.modifyScope src ({ · with children := [] })).scopes.size := by
    intro c hc
    rw [size_modifyScope]
    exact ((h.mem_children hs).mp hc).1.1
  obtain ⟨hupper, hkids⟩ := links_handChildren src (g.scopeAt dst).variableScope hd' hcs t
  rw [mergeTree, hupper, hkids, scopeAt_modifyScope]
  by_cases htd : t = dst
  · subst htd
    simp [hne]
  · by_cases hts : t = src <;> simp [htd, hts, hs.1, Ne.symm hne]

/-- A scope that has handed its children over, and the tree that it is in. -/
theorem TreeLinks.mergeTree {moved : ScopeGraph} (h : g.TreeLinks) (hs : g.LiveScope src)
    (hd : g.LiveScope dst)
    (hout : ¬ g.Below dst src) (htree : moved.treeView = (g.mergeTree src dst).treeView) :
    moved.TreeLinks ∧ Absorbed g moved src dst ∧ moved.LiveScope = g.LiveScope := by
  have hlive : moved.LiveScope = g.LiveScope :=
    (liveScope_congr htree).trans (view_mergeTree LiveScope)
  have hlinks := links_mergeTree h hs hd fun he => hout (he ▸ .refl)
  have habs : Absorbed g moved src dst :=
    { tree := h
      source := hs
      destination := hd
      outside := hout
      live_old := fun ht => hlive ▸ ht
      live_new := fun ht _ => hlive ▸ ht
      upper := fun ht => (upper_congr htree _).trans ((hlinks _).1.trans (h.upper_redirect hs (hlive ▸ ht))) }
  refine ⟨habs.treeLinks_of_append hlive fun t => ?_, habs, hlive⟩
  exact (children_congr htree t).trans (hlinks t).2

/-- The graph when a scope has handed over its children, its variables and its references and lists
nothing any more. -/
def mergeStart (g : ScopeGraph) (src dst : ScopeId) : ScopeGraph :=
  ((((g.mergeTree src dst).takeVariables src dst ({ · with vars := [] })).modifyScope src
    ({ · with set := [] })).takeReferences src dst).modifyScope src ({ · with through := [] })

theorem view_mergeStart (view : ScopeGraph → β) [IgnoresFlow view] [IgnoresBindings view]
    [IgnoresPlaces view]
    [IgnoresDecls view] : view (g.mergeStart src dst) = view (g.mergeTree src dst) :=
  IgnoresFlow.through.trans ((view_takeReferences view).trans (declared.trans
    (view_takeVariables view declared)))

/-- What is left to do then is to reroute what flowed out of the scope, and to take the scope
out. -/
theorem mergeScope_eq_detachScope :
    g.mergeScope src dst = ((g.scopeAt src).through.foldl (rerouteReference
      (((g.mergeStart src dst).ancestors src).drop 1) ((g.mergeStart src dst).ancestors dst))
      (g.mergeStart src dst)).detachScope src := by
  rw [mergeScope_eq, ← mergeTree]
  dsimp only
  unfold mergeStart
  have hcontent : (g.mergeTree src dst).contentView = g.contentView := view_mergeTree contentView
  generalize g.mergeTree src dst = handed at hcontent ⊢
  have hthrough : ((((handed.takeVariables src dst ({ · with vars := [] })).modifyScope src
      ({ · with set := [] })).takeReferences src dst).scopeAt src).through = (g.scopeAt src).through := by
    rw [through_congr (view_takeReferences throughView),
      field_modifyScope (·.through) fun _ => by rfl, through_congr throughView_takeVariables,
      field_modifyScope (·.through) fun _ => by rfl,
      through_congr (throughView_of_content hcontent)]
  generalize ((handed.takeVariables src dst ({ · with vars := [] })).modifyScope src
    ({ · with set := [] })).takeReferences src dst = moved at hthrough ⊢
  have htree : (moved.modifyScope src ({ · with through := [] })).treeView = moved.treeView :=
    treeView_modifyScope fun _ => ⟨rfl, rfl, rfl⟩
  rw [hthrough, ancestors_congr_tree htree, ancestors_congr_tree htree]

/-- A merged scope has handed its children over when it is detached. -/
theorem mergeScope_eq_moved (view : ScopeGraph → β) [IgnoresContents view] (g : ScopeGraph)
    (src dst : ScopeId) : ∃ moved : ScopeGraph, view moved = view (g.mergeTree src dst) ∧
      g.mergeScope src dst = moved.detachScope src :=
  ⟨_, (view_rerouteAll view).trans (view_mergeStart view), mergeScope_eq_detachScope⟩

/-- All of a scope has been handed over, and what flowed out of it is ready to be rerouted. -/
structure Merging (g start : ScopeGraph) (settled : ReferenceId → Prop) (src dst : ScopeId) :
    Prop where
  absorbed : Absorbed g start src dst
  handed : HandedOver g start src dst
  live : start.LiveScope = g.LiveScope
  children : ∀ t, (start.scopeAt t).children =
    if t = dst then (g.scopeAt t).children ++ (g.scopeAt src).children
    else if t = src then [] else (g.scopeAt t).children
  vars : (start.scopeAt src).vars = []
  flow : start.WellFormedBut settled (· ∈ (g.scopeAt src).through)
  rerouted : ∀ r ∈ (g.scopeAt src).through,
    start.Rerouted settled dst ((start.ancestors src).drop 1) r

/-- A scope may hand over all it has to another one that is not below it. -/
theorem WellFormed.merging (h : g.WellFormed settled) (hs : g.LiveScope src) (hd : g.LiveScope dst)
    (hout : ¬ g.Below dst src) : Merging g (g.mergeStart src dst) settled src dst := by
  have hne : dst ≠ src := fun he => hout (he ▸ .refl)
  have hlinks := links_mergeTree h.tree hs hd hne
  have hcontent : (g.mergeTree src dst).contentView = g.contentView := view_mergeTree contentView
  have hlive : (g.mergeTree src dst).LiveScope = g.LiveScope := view_mergeTree LiveScope
  have htree : (g.mergeStart src dst).treeView = (g.mergeTree src dst).treeView :=
    view_mergeStart treeView
  obtain ⟨htrees, habs, hlive'⟩ := h.tree.mergeTree hs hd hout htree
  unfold mergeStart at htree htrees habs hlive' ⊢
  generalize g.mergeTree src dst = handed at *
  obtain ⟨hdecl, hplace, hbind⟩ := h.links_of_content hlive hcontent
  have hover := (HandedOver.variablesFirst ({ · with vars := [] }) ({ · with set := [] })
    (fun _ => ⟨rfl, rfl, rfl⟩) (fun _ => rfl) (fun _ => ⟨rfl, rfl, rfl⟩) (fun _ => rfl) hdecl hplace
    hbind (hlive ▸ hs) (hlive ▸ hd) hne).of_content hcontent
  have hsrc : src < handed.scopes.size := (hlive ▸ hs).1
  have htaken : (handed.takeVariables src dst ({ · with vars := [] })).treeView = handed.treeView :=
    view_takeVariables treeView declared
  have hvars : ((handed.takeVariables src dst ({ · with vars := [] })).scopeAt src).vars = [] := by
    rw [takeVariables, vars_adoptVariables (Ne.symm hne), scopeAt_modifyScope, if_pos ⟨rfl, hsrc⟩]
  generalize handed.takeVariables src dst ({ · with vars := [] }) = taken at *
  have hvars' : ((taken.modifyScope src ({ · with set := [] })).scopeAt src).vars = [] := by
    rw [field_modifyScope (·.vars) fun _ => by rfl, hvars]
  have hset : ((taken.modifyScope src ({ · with set := [] })).scopeAt src).set = [] := by
    rw [scopeAt_modifyScope, if_pos ⟨rfl, (size_congr htaken).symm ▸ hsrc⟩]
  have hcleared : (taken.modifyScope src ({ · with set := [] })).treeView = handed.treeView := by
    rw [treeView_modifyScope fun _ => by simp, htaken]
  generalize taken.modifyScope src ({ · with set := [] }) = cleared at *
  have hdecl :
      ((cleared.takeReferences src dst).modifyScope src ({ · with through := [] })).declView =
      cleared.declView :=
    (declView_modifyScope fun _ => by simp).trans (view_takeReferences declView)
  have hover' :
      HandedOver g ((cleared.takeReferences src dst).modifyScope src ({ · with through := [] }))
      src dst := hover.modifySource (fun _ => rfl) fun _ => rfl
  have hempty : (((cleared.takeReferences src dst).modifyScope src
      ({ · with through := [] })).scopeAt src).through = [] := by
    have hsize : src < (cleared.takeReferences src dst).scopes.size := by
      rw [size_congr (view_takeReferences treeView), size_congr hcleared]
      exact hsrc
    rw [scopeAt_modifyScope, if_pos ⟨rfl, hsize⟩]
  generalize (cleared.takeReferences src dst).modifyScope src ({ · with through := [] }) =
    start at *
  have hkids : ∀ t, (start.scopeAt t).children =
      if t = dst then (g.scopeAt t).children ++ (g.scopeAt src).children
      else if t = src then [] else (g.scopeAt t).children := by
    intro t
    rw [children_congr htree, (hlinks t).2]
  have hvars'' : (start.scopeAt src).vars = [] := (vars_congr hdecl src).trans hvars'
  have hdecls :=
    hover'.declarations.links hvars'' ((set_congr hdecl src).trans hset)
  obtain ⟨hflow, hrerouted⟩ := h.absorb habs hover' hdecls htrees hlive' hempty
  exact ⟨habs, hover', hlive', hkids, hvars'', hflow, hrerouted⟩

/-- A scope may be merged into another that is not below it. -/
theorem WellFormed.mergeScope (h : g.WellFormed settled) (hs : g.LiveScope src)
    (hd : g.LiveScope dst) (hout : ¬ g.Below dst src) :
    (g.mergeScope src dst).WellFormed settled := by
  rw [mergeScope_eq_detachScope]
  have hm := h.merging hs hd hout
  refine (hm.flow.rerouteAll (h.through.nodup hs) hm.rerouted rfl).detachScope ?_ ?_ ?_ ?_
  · rw [liveScope_congr (view_rerouteAll treeView), hm.live]
    exact hs
  · rw [children_congr (view_rerouteAll treeView), hm.children, if_neg (Ne.symm hm.absorbed.ne),
      if_pos rfl]
  · rw [vars_congr (view_rerouteAll declView), hm.vars]
  · rw [references_congr (view_rerouteAll placeView), hm.handed.emptied]

end Merge

end Loom.ScopeGraph
