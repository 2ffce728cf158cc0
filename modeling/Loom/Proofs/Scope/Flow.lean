import Loom.Proofs.Scope.Ignores
import Loom.Proofs.Scope.WellFormed
import Mathlib.Data.List.Nodup

/-!
The flow of references: what changes when one of them is let through scopes, taken out of them,
bound or looked up along a path.
-/

open List

namespace Loom.ScopeGraph

variable {scopes : List ScopeId} {r q : ReferenceId} {t base s : ScopeId} {v : VariableId}
  {g : ScopeGraph} {settled open_ : ReferenceId → Prop}

theorem mem_pushNew {xs : List Nat} {x y : Nat} : y ∈ pushNew xs x ↔ y ∈ xs ∨ y = x := by
  unfold pushNew
  split
  · rename_i h
    simp only [contains_eq_mem, decide_eq_true_eq] at h
    constructor
    · exact .inl
    · rintro (hy | rfl)
      · exact hy
      · exact h
  · simp

theorem nodup_pushNew {xs : List Nat} {x : Nat} (h : xs.Nodup) : (pushNew xs x).Nodup := by
  unfold pushNew
  split
  · exact h
  · rename_i hx
    simp only [contains_eq_mem, decide_eq_true_eq] at hx
    rw [← concat_eq_append]
    exact .concat hx h

/-! Letting a reference through scopes. -/

theorem mem_addThrough : q ∈ ((g.addThrough s r).scopeAt t).through ↔
    q ∈ (g.scopeAt t).through ∨ (q = r ∧ t = s ∧ t < g.scopes.size) := by
  rw [addThrough, scopeAt_modifyScope]
  by_cases ht : t = s ∧ s < g.scopes.size
  · rw [if_pos ht, mem_pushNew, ht.1]
    simp [ht.2]
  · rw [if_neg ht]
    constructor
    · exact .inl
    · rintro (h | ⟨-, rfl, hs⟩)
      · exact h
      · exact absurd ⟨rfl, hs⟩ ht

theorem nodup_through_addThrough (h : (g.scopeAt t).through.Nodup) :
    ((g.addThrough s r).scopeAt t).through.Nodup := by
  rw [addThrough, scopeAt_modifyScope]
  split
  · rename_i ht
    exact nodup_pushNew (ht.1 ▸ h)
  · exact h

/-- What letting a reference through more scopes does. -/
theorem mem_addThroughs : q ∈ ((scopes.foldl (·.addThrough · r) g).scopeAt t).through ↔
    q ∈ (g.scopeAt t).through ∨ (q = r ∧ t ∈ scopes ∧ t < g.scopes.size) := by
  induction scopes generalizing g with
  | nil => simp
  | cons s scopes ih =>
    have hsize : (g.addThrough s r).scopes.size = g.scopes.size :=
      size_congr (view_addThrough treeView)
    rw [foldl_cons, ih, mem_addThrough, hsize, mem_cons]
    tauto

theorem nodup_through_addThroughs (h : (g.scopeAt t).through.Nodup) :
    ((scopes.foldl (·.addThrough · r) g).scopeAt t).through.Nodup := by
  induction scopes generalizing g with
  | nil => exact h
  | cons s scopes ih => exact ih (nodup_through_addThrough h)

/-! Taking a reference out of scopes. -/

section

variable (g) (scopes : List ScopeId) (r : ReferenceId)

theorem through_dropThrough : ((g.dropThrough scopes r).scopeAt t).through =
    if t ∈ scopes then (g.scopeAt t).through.filter (· != r) else (g.scopeAt t).through := by
  induction scopes generalizing g with
  | nil => rfl
  | cons s scopes ih =>
    have hstep : ((g.modifyScope s fun sc => { sc with through := sc.through.filter (· != r) }).scopeAt
        t).through = if t = s then (g.scopeAt t).through.filter (· != r) else (g.scopeAt t).through := by
      rw [scopeAt_modifyScope]
      by_cases hts : t = s
      · subst hts
        by_cases hsize : t < g.scopes.size
        · simp [hsize]
        · have hdefault : g.scopeAt t = default := by
            simp [scopeAt, Array.getD_eq_getD_getElem?, Array.getElem?_eq_none (Nat.le_of_not_lt hsize)]
          simp [hsize, hdefault, show (default : Scope).through = [] from rfl]
      · simp [hts]
    rw [dropThrough, foldl_cons, ← dropThrough, ih, hstep]
    by_cases hts : t = s <;> by_cases htm : t ∈ scopes <;> simp [hts, htm]

theorem scopeAt_dropThrough : (g.dropThrough scopes r).scopeAt t = { g.scopeAt t with
      through := if t ∈ scopes then (g.scopeAt t).through.filter (· != r) else (g.scopeAt t).through } := by
  let rest (x : Scope) : Scope := { x with through := [] }
  have hrest : rest ((g.dropThrough scopes r).scopeAt t) = rest (g.scopeAt t) := by
    apply view_foldl fun g => rest (g.scopeAt t)
    intro g s
    exact field_modifyScope rest (fun _ => by rfl) ..
  rw [← through_dropThrough]
  exact congrArg
    (fun x : Scope => { x with through := ((g.dropThrough scopes r).scopeAt t).through }) hrest

theorem variableAt_dropThrough : (g.dropThrough scopes r).variableAt v = g.variableAt v := by
  apply view_foldl fun g => g.variableAt v
  exact fun _ _ => rfl

theorem referenceAt_dropThrough : (g.dropThrough scopes r).referenceAt q = g.referenceAt q := by
  apply view_foldl fun g => g.referenceAt q
  exact fun _ _ => rfl

end

theorem mem_dropThrough : q ∈ ((g.dropThrough scopes r).scopeAt t).through ↔
    q ∈ (g.scopeAt t).through ∧ ¬ (q = r ∧ t ∈ scopes) := by
  rw [through_dropThrough]
  split
  · rename_i ht
    simp [ht]
  · rename_i ht
    simp [ht]

theorem nodup_through_dropThrough
    (h : (g.scopeAt t).through.Nodup) : ((g.dropThrough scopes r).scopeAt t).through.Nodup := by
  rw [through_dropThrough]
  split
  · exact h.filter _
  · exact h

/-! Binding a reference. -/

theorem mem_bound_link {w : VariableId} : q ∈ ((g.link r v).variableAt w).references ↔
    q ∈ (g.variableAt w).references ∨ (q = r ∧ w = v ∧ v < g.vars.size) := by
  have hvar : (g.link r v).variableAt w =
      (g.modifyVariable v fun x => { x with references := pushNew x.references r }).variableAt w := rfl
  rw [hvar, variableAt_modifyVariable]
  by_cases hw : w = v ∧ v < g.vars.size
  · rw [if_pos hw, mem_pushNew, hw.1]
    simp [hw.2]
  · rw [if_neg hw]
    tauto

theorem resolved_link (hr : r < g.references.size) :
    ((g.link r v).referenceAt q).resolved = if q = r then some v
      else (g.referenceAt q).resolved := by
  have href : (g.link r v).referenceAt q =
      (g.modifyReference r ({ · with resolved := some v })).referenceAt q := rfl
  rw [href, referenceAt_modifyReference]
  by_cases hq : q = r <;> simp [hq, hr]

theorem BindingLinks.link (h : g.BindingLinks)
    (hr : g.LiveReference r) (hfree : (g.referenceAt r).resolved = none) (hv : g.LiveVariable v) :
    (g.link r v).BindingLinks where
  mem_references := by
    intro w q
    rw [mem_bound_link, resolved_link hr.1, liveReference_congr (view_link placeView),
      h.mem_references]
    by_cases hq : q = r
    · subst hq
      simp [hr, hfree, hv.1, eq_comm]
    · simp [hq]
  bound_live := by
    intro q w
    rw [liveReference_congr (view_link placeView), liveVariable_congr (view_link declView),
      resolved_link hr.1]
    intro hq hw
    by_cases hqr : q = r
    · rw [if_pos hqr] at hw
      cases hw
      exact hv
    · rw [if_neg hqr] at hw
      exact h.bound_live hq hw

/-! Chains of live scopes. -/

namespace TreeLinks

variable (h : g.TreeLinks)

include h

theorem live_of_below (hs : g.LiveScope s) (hst : g.Below s t) : g.LiveScope t := by
  induction hst with
  | refl => exact hs
  | tail _ hu ih => exact h.upper_live ih hu

theorem chain_ancestors (hs : g.LiveScope s) : g.Chain s (g.ancestors s) := by
  obtain ⟨l, hl⟩ := h.rooted hs
  have hbound : ∀ t ∈ l, t < g.scopes.size := fun t ht =>
    (h.live_of_below hs (hl.mem_iff.mp ht)).1
  rw [ancestors, hl.ancestorsWithin_eq (hl.length_le hbound)]
  exact hl

theorem mem_ancestors (hs : g.LiveScope s) : t ∈ g.ancestors s ↔ g.Below s t :=
  (h.chain_ancestors hs).mem_iff

theorem below_antisymm (hs : g.LiveScope s) (hst : g.Below s t) (hts : g.Below t s) : s = t :=
  (h.chain_ancestors hs).antisymm hst hts

/-- The scopes from `s` up to `o` are those up to `base` and those from there on. -/
theorem between_append {o : ScopeId} (ht : g.LiveScope t) (hsb : g.Below s base)
    (hbo : g.Below base o) :
    (g.Below s t ∧ g.Below t base ∧ t ≠ base) ∨ (g.Below base t ∧ g.Below t o ∧ t ≠ o) ↔
      g.Below s t ∧ g.Below t o ∧ t ≠ o := by
  constructor
  · rintro (⟨hst, htb, hne⟩ | ⟨hbt, hto, hne⟩)
    · refine ⟨hst, htb.trans hbo, ?_⟩
      rintro rfl
      exact hne (h.below_antisymm ht htb hbo)
    · exact ⟨hsb.trans hbt, hto, hne⟩
  · rintro ⟨hst, hto, hne⟩
    rcases below_total hst hsb with htb | hbt
    · by_cases heq : t = base
      · exact .inr ⟨heq ▸ .refl, hto, hne⟩
      · exact .inl ⟨hst, htb, heq⟩
    · exact .inr ⟨hbt, hto, hne⟩

end TreeLinks

/-! Looking a reference up along a path. -/

/-- The look-up stops at the first scope of the path that declares the name. -/
theorem resolveAlong_cases (g : ScopeGraph) (r : ReferenceId) (name : String)
    (path : List ScopeId) :
    ((∀ s ∈ path, g.declared? s name = none) ∧ g.resolveAlong r name path =
      (false, path.foldl (·.addThrough · r) g)) ∨
    ∃ pre s post v, path = pre ++ s :: post ∧ g.declared? s name = some v ∧
      g.resolveAlong r name path = (true, (pre.foldl (·.addThrough · r) g).link r v) := by
  induction path generalizing g with
  | nil => exact .inl ⟨by simp, rfl⟩
  | cons s path ih =>
    have hdecl : ∀ t, (g.addThrough s r).declared? t name = g.declared? t name :=
      fun t => declared_congr (view_addThrough declView) t name
    cases hs : g.declared? s name with
    | some v =>
      exact .inr ⟨[], s, path, v, rfl, hs, by simp [resolveAlong, hs]⟩
    | none =>
      rcases ih (g.addThrough s r) with ⟨hnone, heq⟩ | ⟨pre, t, post, v, rfl, ht, heq⟩
      · refine .inl ⟨?_, ?_⟩
        · intro t ht
          rcases mem_cons.mp ht with rfl | ht
          · exact hs
          · rw [← hdecl t]
            exact hnone t ht
        · simp [resolveAlong, hs, heq]
      · refine .inr ⟨s :: pre, t, post, v, rfl, ?_, ?_⟩
        · rw [← hdecl t]
          exact ht
        · simp [resolveAlong, hs, heq]

/-- The scopes of a path before one of them, when the path is the chain of a scope. -/
theorem Chain.mem_before {pre post : List ScopeId} (h : g.Chain base (pre ++ s :: post)) :
    t ∈ pre ↔ g.Below base t ∧ g.Below t s ∧ t ≠ s := by
  have hnotin : ∀ x ∈ pre, (x != s) = true := by
    intro x hx
    have hne := (nodup_append.mp h.nodup).2.2 x hx s (by simp)
    simp [hne]
  have htake : (pre ++ s :: post).takeWhile (· != s) = pre := by
    rw [takeWhile_append_of_pos hnotin]
    simp
  have hbelow : g.Below base s := h.mem_iff.mp (by simp)
  rw [← h.mem_takeWhile hbelow, htake]

/-- An edit of what passes through the scopes keeps all that does not read the flow of `r`. -/
theorem WellFormedBut.of_through {g' : ScopeGraph} (h : g.WellFormedBut settled open_)
    (hopen : open_ r) (ht : g'.treeView = g.treeView) (hd : g'.declView = g.declView)
    (hp : g'.placeView = g.placeView) (hb : g'.bindingView = g.bindingView)
    (hlive : ∀ {s}, g.LiveScope s → r ∈ (g'.scopeAt s).through → g.LiveReference r)
    (hmem : ∀ {s q}, q ≠ r → (q ∈ (g'.scopeAt s).through ↔ q ∈ (g.scopeAt s).through))
    (hnodup : ∀ {s}, (g.scopeAt s).through.Nodup → (g'.scopeAt s).through.Nodup) :
    g'.WellFormedBut settled open_ := by
  refine h.of_views ht hd hp (h.bindings.congr hd hp hb) ⟨?_, ?_⟩ (fun q _ => resolved_congr hb q)
    ?_
  · intro s q
    rw [liveScope_congr ht, liveReference_congr hp]
    intro hs hq
    by_cases hqr : q = r
    · subst hqr
      exact hlive hs hq
    · exact h.through.live hs ((hmem hqr).mp hq)
  · intro s
    rw [liveScope_congr ht]
    exact fun hs => hnodup (h.through.nodup hs)
  · intro q s hnot
    exact hmem fun he => hnot (he ▸ hopen)

theorem WellFormedBut.addThroughs (scopes : List ScopeId) (h : g.WellFormedBut settled open_)
    (hr : g.LiveReference r) (hopen : open_ r) :
    (scopes.foldl (·.addThrough · r) g).WellFormedBut settled open_ :=
  h.of_through hopen (view_addThroughs treeView) (view_addThroughs declView)
    (view_addThroughs placeView)
    (view_addThroughs bindingView) (fun _ _ => hr) (fun hne => by simp [mem_addThroughs, hne])
    nodup_through_addThroughs

theorem WellFormedBut.dropThrough (scopes : List ScopeId) (h : g.WellFormedBut settled open_)
    (hopen : open_ r) : (g.dropThrough scopes r).WellFormedBut settled open_ :=
  h.of_through hopen (view_dropThrough treeView) (view_dropThrough declView)
    (view_dropThrough placeView)
    (view_dropThrough bindingView) (fun hs hq => h.through.live hs (mem_dropThrough.mp hq).1)
    (fun hne => by simp [mem_dropThrough, hne]) nodup_through_dropThrough

/-- Binding a free reference keeps all that does not read its flow. -/
theorem WellFormedBut.link (h : g.WellFormedBut settled open_) (hr : g.LiveReference r)
    (hfree : (g.referenceAt r).resolved = none) (hv : g.LiveVariable v) (hopen : open_ r) :
    (g.link r v).WellFormedBut settled open_ := by
  refine h.of_views (view_link treeView) (view_link declView) (view_link placeView)
    (h.bindings.link hr hfree hv) (h.through.congr (view_link treeView) (view_link placeView)
      (view_link throughView)) ?_ fun _ _ _ => Iff.rfl
  intro q hnot
  have hne : q ≠ r := fun he => hnot (he ▸ hopen)
  rw [resolved_link hr.1, if_neg hne]

/-- Once the flow of a reference is right, it need not be left open. -/
theorem WellFormedBut.close (h : g.WellFormedBut settled fun q => open_ q ∨ q = r)
    (hr : g.LiveReference r → g.Flow (settled r) r) : g.WellFormedBut settled open_ :=
  { h with
    flow := by
      intro q hq hnot
      by_cases hqr : q = r
      · subst hqr
        exact hr hq
      · exact h.flow hq (by tauto) }

/-- Looking a free reference up from `base` settles it, when so far it passes just through the
scopes between its own scope and `base`. -/
theorem WellFormedBut.resolveAlong (h : g.WellFormedBut settled fun q => open_ q ∨ q = r)
    (name : String)
    (hr : g.LiveReference r) (hfree : (g.referenceAt r).resolved = none) (hset : settled r)
    (hbase : g.Below (g.referenceAt r).source base)
    (hth : ∀ {s}, g.LiveScope s → (r ∈ (g.scopeAt s).through ↔
      g.Below (g.referenceAt r).source s ∧ g.Below s base ∧ s ≠ base)) :
    (g.resolveAlong r name (g.ancestors base)).2.WellFormedBut settled open_ := by
  have hsource := h.places.source_live hr
  have hlive := h.tree.live_of_below hsource hbase
  have hchain := h.tree.chain_ancestors hlive
  rcases resolveAlong_cases g r name (g.ancestors base) with
    ⟨-, heq⟩ | ⟨pre, s, post, v, hpath, hdecl, heq⟩
  · rw [heq]
    refine (h.addThroughs _ hr (.inr rfl)).close fun _ => ?_
    have howner : ((g.ancestors base).foldl (·.addThrough · r) g).owner? r = none := by
      rw [owner_congr (view_addThroughs declView) (resolved_congr
        (view_addThroughs bindingView) r), owner?, hfree]
      rfl
    refine .of_free (view_addThroughs treeView) (source_congr (view_addThroughs placeView) r) howner
      fun {s} hs => ?_
    rw [mem_addThroughs, hth hs, hchain.mem_iff]
    constructor
    · rintro (⟨hbelow, -⟩ | ⟨-, hbelow, -⟩)
      · exact ⟨hset, hbelow⟩
      · exact ⟨hset, hbase.trans hbelow⟩
    · rintro ⟨-, hbelow⟩
      rcases below_total hbelow hbase with hsb | hbs
      · by_cases hsb' : s = base
        · exact .inr ⟨rfl, hsb' ▸ .refl, hs.1⟩
        · exact .inl ⟨hbelow, hsb, hsb'⟩
      · exact .inr ⟨rfl, hbs, hs.1⟩
  · rw [heq]
    rw [hpath] at hchain
    have hbs : g.Below base s := hchain.mem_iff.mp (by simp)
    have hslive := h.tree.live_of_below hlive hbs
    obtain ⟨hvar, hscope, -⟩ := h.declarations.declared hslive hdecl
    have h1 := h.addThroughs pre hr (.inr rfl)
    have hr1 : (pre.foldl (·.addThrough · r) g).LiveReference r :=
      hr.of_place (view_addThroughs placeView)
    have hfree1 : ((pre.foldl (·.addThrough · r) g).referenceAt r).resolved = none := by
      rw [resolved_congr (view_addThroughs bindingView)]
      exact hfree
    have hv1 : (pre.foldl (·.addThrough · r) g).LiveVariable v :=
      hvar.of_declaration (view_addThroughs declView)
    refine (h1.link hr1 hfree1 hv1 (.inr rfl)).close fun _ => ?_
    have howner : ((pre.foldl (·.addThrough · r) g).link r v).owner? r = some s := by
      rw [owner?, resolved_link hr1.1, if_pos rfl, Option.map_some,
        scope_congr ((view_link declView).trans (view_addThroughs declView)), hscope]
    refine .of_bound ((view_link treeView).trans (view_addThroughs treeView))
      (source_congr ((view_link placeView).trans (view_addThroughs placeView)) r) howner hset (hbase.trans hbs)
      fun ht => ?_
    rw [through_congr (view_link throughView), mem_addThroughs, hth ht,
      hchain.mem_before, ← h.tree.between_append ht hbase hbs]
    simp [ht.1]

end Loom.ScopeGraph
