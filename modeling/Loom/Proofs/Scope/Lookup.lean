import Loom.Proofs.Scope.Sound

/-!
Looking references up is lexical lookup, in any order.

A graph is built by adding scopes, declarations and references; then each reference is looked up
once. A look-up writes only what a reference is bound to, the references of that variable and the
flow through the scopes, and reads none of this. So what it writes for one reference does not depend
on the references looked up before, and all orders give the same links: those that the lookup of the
name from the scope of the reference gives.
-/

open List

namespace Loom

variable {α : Type} {f : α → α} {order : List ReferenceId} {r : ReferenceId} {s : ScopeId}

open ScopeGraph

namespace ScopeStep

/-- An operation that builds: it adds a scope, a declaration or a reference to scopes that exist. -/
def Building (g : ScopeGraph) : ScopeStep → Prop
  | .addScope _ _ upper => ∀ u ∈ upper, u < g.scopes.size
  | .declare s _ _ _ | .addReference s _ _ _ _ => s < g.scopes.size
  | _ => False

/-- Each operation of a run builds when its turn comes. -/
def BuildingRun (a : Arena) : List ScopeStep → ScopeGraph → Prop
  | [], _ => True
  | step :: steps, g => step.Building g ∧ BuildingRun a steps (step.perform a g).2

instance decidableBuilding (g : ScopeGraph) : (step : ScopeStep) → Decidable (step.Building g)
  | .addScope _ _ upper => inferInstanceAs (Decidable (∀ u ∈ upper, u < g.scopes.size))
  | .declare s _ _ _ | .addReference s _ _ _ _ => inferInstanceAs (Decidable (s < g.scopes.size))
  | .resolve _ | .registerNode _ _ | .removeVariable _ _ | .removeReference _ _ | .removeScope _
  | .replaceScope _ _ | .mergeScope _ _ | .synthesizeReference _ _ _ _ | .declareReactive _ _
  | .declareImplicit _ _ | .resolveStores => inferInstanceAs (Decidable False)

instance decidableBuildingRun (a : Arena) :
    (steps : List ScopeStep) → (g : ScopeGraph) → Decidable (BuildingRun a steps g)
  | [], _ => inferInstanceAs (Decidable True)
  | _ :: steps, _ =>
    have := decidableBuildingRun a steps
    inferInstanceAs (Decidable (_ ∧ _))

end ScopeStep

namespace ScopeGraph

variable {v : VariableId} {name : String} {path : List ScopeId} {a : Arena} {g g' g0 : ScopeGraph}

/-- Looks references up one after another. -/
def resolveAll (order : List ReferenceId) (g : ScopeGraph) : ScopeGraph :=
  order.foldl (fun g r => (g.resolve r).2) g

/-! What a look-up leaves alone. -/

/-- A graph without what look-ups write. -/
def skeleton (g : ScopeGraph) : ScopeGraph :=
  { g with
    scopes := g.scopes.map ({ · with through := [] })
    vars := g.vars.map ({ · with references := [] })
    references := g.references.map ({ · with resolved := none }) }

theorem map_modify {β : Type} {view : α → β} (hf : ∀ x, view (f x) = view x) (xs : Array α)
    (i : Nat) : (xs.modify i f).map view = xs.map view := by
  refine Array.ext (by simp) fun j _ _ => ?_
  simp only [Array.getElem_map, Array.getElem_modify]
  split
  · exact hf _
  · rfl

theorem getD_map (xs : Array α) (i : Nat) {d : α} (hd : f d = d) :
    (xs.map f).getD i d = f (xs.getD i d) := by
  simp only [Array.getD_eq_getD_getElem?, Array.getElem?_map]
  cases xs[i]? with
  | none => exact hd.symm
  | some x => rfl

theorem scopeAt_skeleton : g.skeleton.scopeAt s = { g.scopeAt s with through := [] } :=
  getD_map _ _ rfl

theorem variableAt_skeleton : g.skeleton.variableAt v = { g.variableAt v with references := [] } :=
  getD_map _ _ rfl

theorem referenceAt_skeleton :
    g.skeleton.referenceAt r = { g.referenceAt r with resolved := none } := getD_map _ _ rfl

theorem treeView_skeleton : g.skeleton.treeView = g.treeView := by
  simp only [treeView, scopeAt_skeleton]
  simp [skeleton]

theorem declView_skeleton : g.skeleton.declView = g.declView := by
  simp only [declView, scopeAt_skeleton, variableAt_skeleton]
  simp [skeleton]

theorem placeView_skeleton : g.skeleton.placeView = g.placeView := by
  simp only [placeView, scopeAt_skeleton, referenceAt_skeleton]
  simp [skeleton]

section

variable (h : g.skeleton = g'.skeleton)

include h

/-- What the skeleton of a graph tells. -/
theorem tree_of_skeleton : g.treeView = g'.treeView := by
  rw [← treeView_skeleton, h, treeView_skeleton]

theorem declaration_of_skeleton : g.declView = g'.declView := by
  rw [← declView_skeleton, h, declView_skeleton]

theorem place_of_skeleton : g.placeView = g'.placeView := by
  rw [← placeView_skeleton, h, placeView_skeleton]

theorem name_of_skeleton (r : ReferenceId) : (g.referenceAt r).name = (g'.referenceAt r).name := by
  have href := congrArg (fun x => (x.referenceAt r).name) h
  simpa only [referenceAt_skeleton] using href

theorem findVariable_of_skeleton (s : ScopeId) (name : String) :
    g.findVariable s name = g'.findVariable s name := by
  rw [findVariable, ancestors_congr_tree (tree_of_skeleton h)]
  exact congrArg (List.findSome? · _)
    (funext fun t => declared_congr (declaration_of_skeleton h) t name)

end

/-- What the name of a reference means where it stands. -/
def meaning? (g : ScopeGraph) (r : ReferenceId) : Option VariableId :=
  g.findVariable (g.referenceAt r).source (g.referenceAt r).name

theorem meaning_of_skeleton (h : g.skeleton = g'.skeleton) (r : ReferenceId) :
    g.meaning? r = g'.meaning? r := by
  rw [meaning?, meaning?, source_congr (place_of_skeleton h), name_of_skeleton h,
    findVariable_of_skeleton h]

instance : IgnoresFlow skeleton where
  through := by
    intro g s f
    simp only [skeleton, modifyScope]
    rw [map_modify fun _ => by rfl]

instance : IgnoresBindings skeleton where
  bound := by
    intro g v f
    simp only [skeleton, modifyVariable]
    rw [map_modify fun _ => by rfl]
  resolved := by
    intro g r f
    simp only [skeleton, modifyReference]
    rw [map_modify fun _ => by rfl]

/-! What it writes. -/

theorem resolved_resolveAlong (hr : r < g.references.size) (name : String) (path : List ScopeId)
    (q : ReferenceId) : ((g.resolveAlong r name path).2.referenceAt q).resolved =
      if q = r then (path.findSome? (g.declared? · name)).or (g.referenceAt r).resolved
      else (g.referenceAt q).resolved := by
  induction path generalizing g with
  | nil =>
    rw [resolveAlong, findSome?_nil, Option.none_or]
    split
    case isTrue h => rw [h]
    case isFalse => rfl
  | cons s path ih =>
    rw [resolveAlong, findSome?_cons]
    cases hs : g.declared? s name with
    | some v => exact resolved_link hr
    | none =>
      have hdecl : ∀ t, (g.addThrough s r).declared? t name = g.declared? t name :=
        fun t => declared_congr (view_addThrough declView) t name
      have hrest := ih (g := g.addThrough s r) hr
      simp only [hdecl] at hrest
      exact hrest

/-- A reference that is looked up is bound to what its name means; others are left as they are. -/
theorem resolved_resolve (hr : r < g.references.size) (hfree : (g.referenceAt r).resolved = none)
    (q : ReferenceId) :
    ((g.resolve r).2.referenceAt q).resolved = if q = r then g.meaning? r
      else (g.referenceAt q).resolved := by
  rw [resolve, resolved_resolveAlong hr, hfree, Option.or_none]
  rfl

/-! Building. -/

/-- A graph of at least `n` scopes on which nothing was done but building. -/
structure Built (n : Nat) (g : ScopeGraph) : Prop where
  wellFormed : g.WellFormed fun _ => False
  size_le : n ≤ g.scopes.size
  /-- Every scope has a scope for its `var` declarations. -/
  homed : ∀ s < g.scopes.size, (g.scopeAt s).variableScope < g.scopes.size
  scope_live : ∀ s < g.scopes.size, (g.scopeAt s).removed = false
  reference_live : ∀ r < g.references.size, (g.referenceAt r).removed = false

namespace Built

variable {n : Nat}

theorem empty : Built 0 ScopeGraph.empty where
  wellFormed := by simpa using WellFormed.empty
  size_le := Nat.le_refl 0
  homed := fun s hs => absurd hs (Nat.not_lt_zero s)
  scope_live := fun s hs => absurd hs (Nat.not_lt_zero s)
  reference_live := fun r hr => absurd hr (Nat.not_lt_zero r)

variable (h : Built n g)

include h

theorem liveScope (hs : s < g.scopes.size) : g.LiveScope s := ⟨hs, h.scope_live s hs⟩

theorem liveReference (hr : r < g.references.size) : g.LiveReference r :=
  ⟨hr, h.reference_live r hr⟩

theorem addScope (kind : ScopeKind) (block : NodeId) {upper : Option ScopeId}
    (hupper : ∀ u ∈ upper, u < g.scopes.size) :
    Built (g.scopes.size + 1) (g.addScope kind block upper).2 where
  wellFormed := h.wellFormed.addScope fun u hu => h.liveScope (hupper u hu)
  size_le := Nat.le_of_eq size_addScope.symm
  homed := by
    intro s hs
    rw [size_addScope] at hs ⊢
    rcases Nat.lt_succ_iff_lt_or_eq.mp hs with hs | rfl
    · obtain ⟨children, heq⟩ := scopeAt_addScope_old kind block hupper (h.liveScope hs)
      rw [heq]
      exact Nat.lt_succ_of_lt (h.homed s hs)
    · rw [scopeAt_addScope kind block hupper, if_pos rfl]
      unfold newVariableScope
      split
      · split
        · exact Nat.lt_succ_self _
        · exact Nat.lt_succ_of_lt (h.homed _ (hupper _ rfl))
      · exact Nat.lt_succ_self _
  scope_live := by
    intro s hs
    rw [size_addScope] at hs
    refine ((liveScope_addScope hupper).mpr ?_).2
    rcases Nat.lt_succ_iff_lt_or_eq.mp hs with hs | rfl
    · exact .inl (h.liveScope hs)
    · exact .inr rfl
  reference_live := by
    have hrefs : (g.addScope kind block upper).2.references = g.references := by
      cases upper <;> rfl
    simpa only [referenceAt, hrefs] using h.reference_live

/-- What is built inside the scopes leaves the scopes as they are. -/
theorem of_outline (hout : g'.outline = g.outline) (hwf : g'.WellFormed fun _ => False)
    (hlive : ∀ r < g'.references.size, (g'.referenceAt r).removed = false) : Built n g' := by
  have hsize := size_congr (treeView_of_outline hout)
  refine ⟨hwf, hsize ▸ h.size_le, fun s hs => ?_, fun s hs => ?_, hlive⟩
  · rw [variableScope_congr hout, hsize]
    exact h.homed s (hsize ▸ hs)
  · rw [removed_congr (treeView_of_outline hout)]
    exact h.scope_live s (hsize ▸ hs)

theorem declare (hs : s < g.scopes.size) (name : String) (identifier : NodeId)
    (kind : DefinitionKind) : Built n (g.declare s name identifier kind).2 := by
  refine h.of_outline (view_declare outline)
    (WellFormedBut.declare name identifier kind h.wellFormed (h.liveScope hs)).1 fun r hr => ?_
  have hplace : (g.declare s name identifier kind).2.placeView = g.placeView :=
    view_declare placeView
  have hsize : (g.declare s name identifier kind).2.references.size = g.references.size :=
    congrArg Prod.fst hplace
  exact ((h.liveReference (hsize ▸ hr)).of_place hplace).2

theorem addReference (hs : s < g.scopes.size) (identifier : NodeId) (name : String)
    (access : Access) (init : Bool) : Built n (g.addReference s identifier name access init).2 := by
  refine h.of_outline (view_pushReference outline) (h.wellFormed.addReference (h.liveScope hs) id)
    fun r hr => ?_
  have hsize : (g.addReference s identifier name access init).2.references.size =
      g.references.size + 1 := Array.size_push ..
  rw [hsize] at hr
  refine ((liveReference_pushReference rfl).mpr ?_).2
  rcases Nat.lt_succ_iff_lt_or_eq.mp hr with hr | rfl
  · exact .inl (h.liveReference hr)
  · exact .inr rfl

theorem perform {step : ScopeStep} (hstep : step.Building g) : Built n (step.perform a g).2 := by
  cases step with
  | addScope kind block upper =>
    have hadded := h.addScope kind block hstep
    exact { hadded with size_le := Nat.le_trans (Nat.le_succ_of_le h.size_le) hadded.size_le }
  | declare s name identifier kind => exact h.declare hstep name identifier kind
  | addReference s identifier name access init => exact h.addReference hstep identifier name access init
  | _ => exact hstep.elim

theorem run {steps : List ScopeStep} (hrun : ScopeStep.BuildingRun a steps g) :
    Built n (ScopeStep.run a steps g) := by
  induction steps generalizing g with
  | nil => exact h
  | cons step steps ih => exact ih (h.perform hrun.1) hrun.2

end Built

/-! Looking up. -/

/-- A graph after the look-up of some of its references: only these are bound, to what their names
mean. -/
structure Looked (g0 g : ScopeGraph) (settled : ReferenceId → Prop) : Prop where
  wellFormed : g.WellFormed settled
  skeleton : g.skeleton = g0.skeleton
  resolved : ∀ r, settled r → (g.referenceAt r).resolved = g0.meaning? r

theorem Built.looked {n : Nat} (h : Built n g) : Looked g g fun _ => False :=
  ⟨h.wellFormed, rfl, fun _ hr => hr.elim⟩

theorem Looked.resolve {settled : ReferenceId → Prop} (h : Looked g0 g settled)
    (hr : g.LiveReference r) (hnew : ¬ settled r) :
    Looked g0 (g.resolve r).2 fun q => settled q ∨ q = r where
  wellFormed := h.wellFormed.resolve hr hnew
  skeleton := (view_resolveAlong ScopeGraph.skeleton ..).trans h.skeleton
  resolved := by
    intro q hq
    have hfree := WellFormedBut.free_of_not_settled h.wellFormed hr id hnew
    rw [resolved_resolve hr.1 hfree]
    by_cases hqr : q = r
    · rw [if_pos hqr, hqr, meaning_of_skeleton h.skeleton]
    · rw [if_neg hqr]
      exact h.resolved q (hq.resolve_right hqr)

/-- The look-up of many references, each one once. -/
theorem Looked.resolveAll {settled : ReferenceId → Prop} (h : Looked g0 g settled)
    (hlive : ∀ r ∈ order, g0.LiveReference r) (hnew : ∀ r ∈ order, ¬ settled r)
    (hnodup : order.Nodup) : Looked g0 (resolveAll order g) fun q => settled q ∨ q ∈ order := by
  induction order generalizing g settled with
  | nil =>
    simp only [not_mem_nil, or_false]
    exact h
  | cons r order ih =>
    obtain ⟨hnotin, hnodup⟩ := nodup_cons.mp hnodup
    have hr : g.LiveReference r := by
      rw [liveReference_congr (place_of_skeleton h.skeleton)]
      exact hlive r mem_cons_self
    have hstep := h.resolve hr (hnew r mem_cons_self)
    have hrest := ih hstep (fun q hq => hlive q (mem_cons_of_mem _ hq)) (fun q hq hset => ?_) hnodup
    · simp only [mem_cons, ← or_assoc]
      exact hrest
    · rcases hset with hset | rfl
      · exact hnew q (mem_cons_of_mem _ hq) hset
      · exact hnotin hq

/-- Every reference of a graph is bound lexically, and the lists of the graph say so. -/
structure Resolved (g : ScopeGraph) : Prop where
  resolved : ∀ r < g.references.size,
    (g.referenceAt r).resolved = g.findVariable (g.referenceAt r).source (g.referenceAt r).name
  /-- The scope of the variable of a reference is above the reference. -/
  owner : ∀ r < g.references.size, ∀ o, g.owner? r = some o →
    o ∈ g.ancestors (g.referenceAt r).source
  /-- A reference is listed by the scopes above it that come before the scope of its variable. -/
  through : ∀ s r, r ∈ (g.scopeAt s).through ↔ r < g.references.size ∧
    s ∈ (g.ancestors (g.referenceAt r).source).takeWhile fun t => g.owner? r != some t
  /-- It is listed by its variable and by no other. -/
  bound : ∀ v r, r ∈ (g.variableAt v).references ↔ r < g.references.size ∧
    g.findVariable (g.referenceAt r).source (g.referenceAt r).name = some v

/-- Two graphs that differ at most in the order of the lists that look-ups write. -/
structure SameLinks (g g' : ScopeGraph) : Prop where
  skeleton : g.skeleton = g'.skeleton
  resolved : ∀ r, (g.referenceAt r).resolved = (g'.referenceAt r).resolved
  through : ∀ s r, r ∈ (g.scopeAt s).through ↔ r ∈ (g'.scopeAt s).through
  bound : ∀ v r, r ∈ (g.variableAt v).references ↔ r ∈ (g'.variableAt v).references

/-- The scopes that a reference passes through are the first ones of its chain. -/
theorem passesThrough_iff_mem_takeWhile (h : g.TreeLinks)
    (hr : g.LiveScope (g.referenceAt r).source)
    (howner : ∀ o, g.owner? r = some o → g.Below (g.referenceAt r).source o) :
    g.PassesThrough r s ↔ s ∈ (g.ancestors (g.referenceAt r).source).takeWhile
      fun t => g.owner? r != some t := by
  cases ho : g.owner? r with
  | none =>
    have hall : (g.ancestors (g.referenceAt r).source).takeWhile (fun t => none != some t) =
        g.ancestors (g.referenceAt r).source := by
      induction g.ancestors (g.referenceAt r).source with
      | nil => rfl
      | cons t l ih => rw [takeWhile_cons_of_pos rfl, ih]
    rw [hall, h.mem_ancestors hr, PassesThrough, ho]
    simp
  | some o =>
    have htest : (fun t => (some o != some t)) = (· != o) := by
      funext t
      rw [bne, bne, Option.some_beq_some, BEq.comm]
    rw [htest, (h.chain_ancestors hr).mem_takeWhile (howner o ho), PassesThrough, ho]
    simp

namespace Looked

variable {settled : ReferenceId → Prop}

/-- When all references have been looked up. -/
theorem complete {n : Nat} (hbuilt : Built n g0) (h : Looked g0 g settled)
    (hall : ∀ r < g0.references.size, settled r) : g.Resolved := by
  have htree := tree_of_skeleton h.skeleton
  have hplace := place_of_skeleton h.skeleton
  have hsize : g.references.size = g0.references.size := congrArg Prod.fst hplace
  have hlive : ∀ {r}, r < g.references.size → g.LiveReference r := by
    intro r hr
    rw [liveReference_congr hplace]
    exact hbuilt.liveReference (hsize ▸ hr)
  have hscope : ∀ {s}, s < g.scopes.size → g.LiveScope s := by
    intro s hs
    rw [liveScope_congr htree]
    exact hbuilt.liveScope (size_congr htree ▸ hs)
  have hset : ∀ {r}, r < g.references.size → settled r := fun hr => hall _ (hsize ▸ hr)
  have hres : ∀ r < g.references.size, (g.referenceAt r).resolved = g.meaning? r := by
    intro r hr
    rw [h.resolved r (hset hr), meaning_of_skeleton h.skeleton]
  have hflow : ∀ {r}, r < g.references.size → g.Flow (settled r) r := fun hr =>
    WellFormedBut.flow h.wellFormed (hlive hr) id
  have hsource : ∀ {r}, r < g.references.size → g.LiveScope (g.referenceAt r).source := fun hr =>
    h.wellFormed.places.source_live (hlive hr)
  refine ⟨hres, ?_, ?_, ?_⟩
  · intro r hr o ho
    exact (h.wellFormed.tree.mem_ancestors (hsource hr)).mpr ((hflow hr).below_owner ho)
  · intro s r
    rcases Nat.lt_or_ge s g.scopes.size with hs | hs
    · have hiff : r < g.references.size → (r ∈ (g.scopeAt s).through ↔
          s ∈ (g.ancestors (g.referenceAt r).source).takeWhile fun t => g.owner? r != some t) := by
        intro hr
        rw [(hflow hr).mem_through (hscope hs), and_iff_right (hset hr)]
        exact passesThrough_iff_mem_takeWhile h.wellFormed.tree (hsource hr) fun o => (hflow hr).below_owner
      constructor
      · intro hmem
        have hr := (h.wellFormed.through.live (hscope hs) hmem).1
        exact ⟨hr, (hiff hr).mp hmem⟩
      · rintro ⟨hr, hmem⟩
        exact (hiff hr).mpr hmem
    · -- There is no such scope, so it lists nothing and is above nothing.
      rw [scopeAt_of_size_le hs]
      constructor
      · intro hr
        cases hr
      · rintro ⟨hr, hmem⟩
        have habove := (h.wellFormed.tree.mem_ancestors (hsource hr)).mp ((takeWhile_sublist _).subset hmem)
        exact absurd (h.wellFormed.tree.live_of_below (hsource hr) habove).1 (Nat.not_lt_of_le hs)
  · intro v r
    rw [h.wellFormed.bindings.mem_references]
    constructor
    · rintro ⟨hr, hv⟩
      rw [hres r hr.1] at hv
      exact ⟨hr.1, hv⟩
    · rintro ⟨hr, hv⟩
      refine ⟨hlive hr, ?_⟩
      rw [hres r hr]
      exact hv

end Looked

/-- Lexical binding leaves no choice but the order of the lists. -/
theorem Resolved.sameLinks (h : g.Resolved) (h' : g'.Resolved)
    (hskel : g.skeleton = g'.skeleton) : SameLinks g g' := by
  have hplace := place_of_skeleton hskel
  have hsize : g.references.size = g'.references.size := congrArg Prod.fst hplace
  have hmeaning := meaning_of_skeleton hskel
  have hres : ∀ r, (g.referenceAt r).resolved = (g'.referenceAt r).resolved := by
    intro r
    rcases Nat.lt_or_ge r g.references.size with hr | hr
    · rw [h.resolved r hr, h'.resolved r (hsize ▸ hr)]
      exact hmeaning r
    · rw [referenceAt_of_size_le hr, referenceAt_of_size_le (hsize ▸ hr)]
  have howner : ∀ r, g.owner? r = g'.owner? r := fun r =>
    owner_congr (declaration_of_skeleton hskel) (hres r)
  refine ⟨hskel, hres, fun s r => ?_, fun v r => ?_⟩
  · rw [h.through, h'.through, hsize, howner, source_congr hplace,
      ancestors_congr_tree (tree_of_skeleton hskel)]
  · rw [h.bound, h'.bound, hsize]
    exact and_congr_right fun _ => by rw [← meaning?, ← meaning?, hmeaning]

theorem Built.resolveAll {n : Nat} (h : Built n g)
    (horder : order.Perm (List.range g.references.size)) :
    (resolveAll order g).Resolved ∧ (resolveAll order g).skeleton = g.skeleton := by
  have hmem : ∀ r, r ∈ order ↔ r < g.references.size := fun r => horder.mem_iff.trans mem_range
  have hlooked := h.looked.resolveAll (fun r hr => h.liveReference ((hmem r).mp hr)) (fun _ _ => id)
    (horder.nodup_iff.mpr nodup_range)
  exact ⟨hlooked.complete h fun r hr => .inr ((hmem r).mpr hr), hlooked.skeleton⟩

end ScopeGraph

end Loom
