import Loom.Proofs.Scope.Run

/-!
Variable scopes: every scope points at the nearest scope, from itself upward, that `var`
declarations belong to.

When a scope becomes a part of another, the scopes that pointed at it point at the variable scope of
the other one then, and no pointer changes besides. That is enough when the scope held its variables
itself, and when both scopes had the same variable scope. Otherwise the children that have no
variables of their own still point out of the place that they came from.
-/

open List

namespace Loom

namespace ScopeGraph

variable {g g' : ScopeGraph} {src dst s t : ScopeId}

/-- A scope that is its own variable scope: one of a kind that holds variables, or one at the
top. -/
def holdsVariables (g : ScopeGraph) (s : ScopeId) : Bool :=
  (g.scopeAt s).kind.isVariableScope || (g.scopeAt s).upper.isNone

/-- The variable scopes of the live scopes follow from the tree. -/
structure VariableScopeLinks (g : ScopeGraph) : Prop where
  own : ∀ {s}, g.LiveScope s → g.holdsVariables s = true → (g.scopeAt s).variableScope = s
  inherited : ∀ {s u}, g.LiveScope s → (g.scopeAt s).kind.isVariableScope = false → g.Up s u →
    (g.scopeAt s).variableScope = (g.scopeAt u).variableScope

theorem VariableScopeLinks.congr (h : g'.outline = g.outline) (hv : g.VariableScopeLinks) :
    g'.VariableScopeLinks where
  own := by
    intro s
    rw [liveScope_congr (treeView_of_outline h), holdsVariables, kind_eq_of_outline h,
      upper_congr (treeView_of_outline h), variableScope_congr h]
    exact hv.own
  inherited := by
    intro s u
    rw [liveScope_congr (treeView_of_outline h), kind_eq_of_outline h,
      up_congr_tree (treeView_of_outline h), variableScope_congr h,
      variableScope_congr h]
    exact hv.inherited

/-! The nearest scope that holds variables. -/

namespace VariableScopeLinks

theorem nearest (hv : g.VariableScopeLinks) (h : g.TreeLinks) (hs : g.LiveScope s) :
    (g.ancestors s).find? g.holdsVariables = some (g.scopeAt s).variableScope := by
  have hchain := h.chain_ancestors hs
  generalize g.ancestors s = l at hchain
  induction hchain with
  | @top s hnone =>
    have hholds : g.holdsVariables s = true := by simp [holdsVariables, hnone]
    rw [find?_cons_of_pos hholds, hv.own hs hholds]
  | @step s u l hup _ ih =>
    cases hkind : (g.scopeAt s).kind.isVariableScope with
    | true =>
      have hholds : g.holdsVariables s = true := by simp [holdsVariables, hkind]
      rw [find?_cons_of_pos hholds, hv.own hs hholds]
    | false =>
      have hup' : (g.scopeAt s).upper = some u := hup
      have hholds : ¬ g.holdsVariables s = true := by simp [holdsVariables, hkind, hup']
      rw [find?_cons_of_neg hholds, ih (h.upper_live hs hup), hv.inherited hs hkind hup]

/-- The variable scope of a scope is at or above it. -/
theorem below (hv : g.VariableScopeLinks) (h : g.TreeLinks) (hs : g.LiveScope s) :
    g.Below s (g.scopeAt s).variableScope :=
  (h.mem_ancestors hs).mp (mem_of_find?_eq_some (hv.nearest h hs))

/-- A scope that points at another one has it from the scope above. -/
theorem upper_of_ne (hv : g.VariableScopeLinks) (hs : g.LiveScope s)
    (hne : (g.scopeAt s).variableScope ≠ s) :
    ∃ u, g.Up s u ∧ (g.scopeAt u).variableScope = (g.scopeAt s).variableScope := by
  cases hup : (g.scopeAt s).upper with
  | none => exact absurd (hv.own hs (by simp [holdsVariables, hup])) hne
  | some u =>
    cases hkind : (g.scopeAt s).kind.isVariableScope with
    | true => exact absurd (hv.own hs (by simp [holdsVariables, hkind])) hne
    | false => exact ⟨u, hup, (hv.inherited hs hkind hup).symm⟩

end VariableScopeLinks

/-! Pointers moved from one scope to another. -/

section Redirect

variable {tree : ScopeGraph} {old new : ScopeId} {cs : List ScopeId}

/-- Scopes that point at `old` in `g` may point at `new` in `g'`, and with a scope that does, no
child that it has in `tree` points at `old` any more. -/
structure Redirects (tree : ScopeGraph) (old new : ScopeId) (g g' : ScopeGraph) : Prop where
  moved : ∀ t, (g'.scopeAt t).variableScope = (g.scopeAt t).variableScope ∨
    (g.scopeAt t).variableScope = old ∧ (g'.scopeAt t).variableScope = new
  closed : ∀ {t c}, (g.scopeAt t).variableScope = old → (g'.scopeAt t).variableScope ≠ old →
    c ∈ (tree.scopeAt t).children → (g'.scopeAt c).variableScope ≠ old

namespace Redirects

theorem of_eq (h : ∀ t, (g'.scopeAt t).variableScope = (g.scopeAt t).variableScope) :
    Redirects tree old new g g' where
  moved := fun t => .inl (h t)
  closed := by
    intro t c ht ht' _
    exact absurd ((h t).trans ht) ht'

/-- A scope that points elsewhere keeps doing so. -/
theorem away (h : Redirects tree old new g g') (hne : new ≠ old)
    (ht : (g.scopeAt t).variableScope ≠ old) : (g'.scopeAt t).variableScope ≠ old := by
  rcases h.moved t with heq | ⟨-, heq⟩
  · rwa [heq]
  · rwa [heq]

theorem trans {g1 : ScopeGraph} (h : Redirects tree old new g g1)
    (h' : Redirects tree old new g1 g') (hne : new ≠ old) : Redirects tree old new g g' where
  moved := by
    intro t
    rcases h.moved t with heq | ⟨hold, hnew⟩
    · rw [← heq]
      exact h'.moved t
    · refine .inr ⟨hold, ?_⟩
      rcases h'.moved t with heq | ⟨hold', -⟩
      · exact heq.trans hnew
      · exact absurd (hnew.symm.trans hold') hne
  closed := by
    intro t c ht ht' hc
    by_cases hmid : (g1.scopeAt t).variableScope = old
    · exact h'.closed hmid ht' hc
    · exact h'.away hne (h.closed ht hmid hc)

theorem foldl (Inv : ScopeGraph → Prop) {f : ScopeGraph → ScopeId → ScopeGraph} (hne : new ≠ old)
    (hf : ∀ {g c}, Inv g → c ∈ cs → Inv (f g c) ∧ Redirects tree old new g (f g c) ∧
      ((f g c).scopeAt c).variableScope ≠ old) (hg : Inv g) :
    Redirects tree old new g (cs.foldl f g) ∧ ∀ c ∈ cs,
      ((cs.foldl f g).scopeAt c).variableScope ≠ old := by
  induction cs generalizing g with
  | nil => exact ⟨of_eq fun _ => rfl, by simp⟩
  | cons c cs ih =>
    obtain ⟨hinv, hone, haway⟩ := hf hg mem_cons_self
    obtain ⟨hrest, hall⟩ := ih (fun hg hd => hf hg (mem_cons_of_mem _ hd)) hinv
    refine ⟨hone.trans hrest hne, fun d hd => ?_⟩
    rcases mem_cons.mp hd with rfl | hd
    · exact hrest.away hne haway
    · exact hall d hd

end Redirects

/-- Strictly below `src`, the scopes of `g` list the children that they have in `tree`. -/
structure SameBelow (tree g : ScopeGraph) (src : ScopeId) : Prop where
  size : g.scopes.size = tree.scopes.size
  children : ∀ {t}, tree.Below t src → t ≠ src → (g.scopeAt t).children = (tree.scopeAt t).children

theorem SameBelow.congr (h : SameBelow tree g src) (ht : g'.treeView = g.treeView) :
    SameBelow tree g' src :=
  ⟨(size_congr ht).trans h.size, fun hin hne => (children_congr ht _).trans (h.children hin hne)⟩

/-- What happens to the children of a scope that is not below `src` does not matter. -/
theorem SameBelow.modifyScope {f : Scope → Scope} (h : SameBelow tree g src)
    (hs : ¬ tree.Below s src ∨ s = src ∨ ∀ x, (f x).children = x.children) :
    SameBelow tree (g.modifyScope s f) src := by
  refine ⟨size_modifyScope.trans h.size, fun {t} hin hne => ?_⟩
  rw [← h.children hin hne]
  rcases hs with hout | rfl | hf
  · rw [scopeAt_modifyScope, if_neg]
    rintro ⟨rfl, -⟩
    exact hout hin
  · rw [scopeAt_modifyScope, if_neg]
    exact fun he => hne he.1
  · exact field_modifyScope (·.children) hf g s t

/-- The descent through a scope strictly below `src` ends with no pointer at `src` left in it. It
goes down as long as it finds such pointers, and every chain is shorter than the fuel. -/
theorem redirects_moveVariableScopeWithin {fuel : Nat} {c : ScopeId} (h : tree.TreeLinks)
    (hne : new ≠ src) (hsame : SameBelow tree g src) (hc : tree.LiveScope c)
    (hin : tree.Below c src)
    (hcs : c ≠ src) (hfuel : tree.scopes.size < fuel + (tree.ancestors c).length) :
    Redirects tree src new g (moveVariableScopeWithin src new fuel g c) ∧
      ((moveVariableScopeWithin src new fuel g c).scopeAt c).variableScope ≠ src := by
  induction fuel generalizing g c with
  | zero =>
    have hchain := h.chain_ancestors hc
    have hle := hchain.length_le fun t ht => (h.live_of_below hc (hchain.mem_iff.mp ht)).1
    omega
  | succ fuel ih =>
    unfold moveVariableScopeWithin
    by_cases hpoints : (g.scopeAt c).variableScope = src
    · rw [if_neg (by simpa using hpoints)]
      dsimp only
      have hpointer : ∀ t, ((g.modifyScope c ({ · with variableScope := new })).scopeAt t).variableScope =
          if t = c then new else (g.scopeAt t).variableScope := by
        intro t
        have hlt : c < g.scopes.size := hsame.size ▸ hc.1
        rw [scopeAt_modifyScope]
        by_cases ht : t = c <;> simp [ht, hlt]
      have hone : SameBelow tree (g.modifyScope c ({ · with variableScope := new })) src :=
        hsame.modifyScope (.inr (.inr fun _ => rfl))
      generalize g.modifyScope c ({ · with variableScope := new }) = one at hpointer hone ⊢
      rw [hone.children hin hcs]
      generalize hdone : (tree.scopeAt c).children.foldl (moveVariableScopeWithin src new fuel) one = done
      have hfold : Redirects tree src new one done ∧
          ∀ d ∈ (tree.scopeAt c).children, (done.scopeAt d).variableScope ≠ src := by
        rw [← hdone]
        refine Redirects.foldl (SameBelow tree · src) hne ?_ hone
        intro g d hg hd
        obtain ⟨hdlive, hup⟩ := (h.mem_children hc).mp hd
        have hds : d ≠ src := by
          rintro rfl
          exact h.not_below_of_up hdlive hup hin
        have hlen := length_ancestors_of_up h hdlive hup
        exact ⟨hg.congr (treeView_moveVariableScopeWithin ..), ih hg hdlive (.head hup hin) hds (by omega)⟩
      obtain ⟨hbelow, haway⟩ := hfold
      have hcnew : (done.scopeAt c).variableScope = new := by
        rcases hbelow.moved c with heq | ⟨heq, -⟩
        · rw [heq, hpointer, if_pos rfl]
        · rw [hpointer, if_pos rfl] at heq
          exact absurd heq hne
      refine ⟨⟨fun t => ?_, fun {t d} ht ht' hd => ?_⟩, hcnew ▸ hne⟩
      · by_cases htc : t = c
        · subst htc
          exact .inr ⟨hpoints, hcnew⟩
        · have hmoved := hbelow.moved t
          rwa [hpointer, if_neg htc] at hmoved
      · by_cases htc : t = c
        · subst htc
          exact haway d hd
        · refine hbelow.closed ?_ ht' hd
          rwa [hpointer, if_neg htc]
    · rw [if_pos (by simpa using hpoints)]
      exact ⟨.of_eq fun _ => rfl, hpoints⟩

/-- Children of `src` that are prepared in some way and then descended into. -/
theorem redirects_children {pre : ScopeGraph → ScopeId → ScopeGraph} {start : ScopeGraph}
    (h : tree.TreeLinks)
    (hs : tree.LiveScope src) (hne : new ≠ src) (hcs : ∀ c ∈ cs, c ∈ (tree.scopeAt src).children)
    (hpre : ∀ {g c}, SameBelow tree g src → SameBelow tree (pre g c) src)
    (hpointer : ∀ g c t, ((pre g c).scopeAt t).variableScope = (g.scopeAt t).variableScope)
    (hstart : SameBelow tree start src) : let done := cs.foldl (fun g c => (pre g c).moveVariableScope c src new) start
    Redirects tree src new start done ∧ ∀ c ∈ cs, (done.scopeAt c).variableScope ≠ src := by
  refine Redirects.foldl (SameBelow tree · src) hne ?_ hstart
  intro g c hg hc
  obtain ⟨hclive, hup⟩ := (h.mem_children hs).mp (hcs c hc)
  have hcs : c ≠ src := by
    rintro rfl
    exact h.not_below_of_up hclive hup .refl
  have hfuel : tree.scopes.size < (pre g c).scopes.size + (tree.ancestors c).length := by
    rw [(hpre hg).size]
    exact Nat.lt_add_of_pos_right (length_pos_of_mem (h.chain_ancestors hclive).head_mem)
  obtain ⟨hmoved, haway⟩ :=
    redirects_moveVariableScopeWithin h hne (hpre hg) hclive (.single hup) hcs hfuel
  exact ⟨(hpre hg).congr treeView_moveVariableScope,
    (Redirects.of_eq (hpointer g c)).trans hmoved hne, haway⟩

/-- Once no child of `src` points at it, no scope does: each scope that did has it from the scope
above. -/
theorem Redirects.eq_redirect (hred : Redirects g src new g g') (h : g.TreeLinks)
    (hv : g.VariableScopeLinks)
    (hkids : ∀ c ∈ (g.scopeAt src).children, (g'.scopeAt c).variableScope ≠ src)
    (ht : g.LiveScope t)
    (hts : t ≠ src) : (g'.scopeAt t).variableScope = redirect src new (g.scopeAt t).variableScope := by
  have haway : (g'.scopeAt t).variableScope = (g.scopeAt t).variableScope →
      (g.scopeAt t).variableScope ≠ src := by
    obtain ⟨l, hl⟩ := h.rooted ht
    induction hl with
    | @top t hnone =>
      intro _
      rwa [hv.own ht (by simp [holdsVariables, hnone])]
    | @step t u l hup _ ih =>
      intro heq hsrc
      obtain ⟨w, hw, hwt⟩ := hv.upper_of_ne ht (hsrc ▸ Ne.symm hts)
      cases upper_unique g hup hw
      have hu := h.upper_live ht hup
      have hmem := (h.mem_children hu).mpr ⟨ht, hup⟩
      by_cases hus : u = src
      · subst hus
        exact hkids t hmem (heq.trans hsrc)
      · have husrc := hwt.trans hsrc
        have hmoved : (g'.scopeAt u).variableScope ≠ src := fun hback =>
          ih hu hus (hback.trans husrc.symm) husrc
        exact hred.closed husrc hmoved hmem (heq.trans hsrc)
  rcases hred.moved t with heq | ⟨hold, hnew⟩
  · rw [heq, redirect_of_ne (haway heq)]
  · rw [hnew, hold, redirect_self]

end Redirect

/-! A scope that becomes a part of another. -/

section Absorb

variable {new : List ScopeId}

/-- The variable scope of a scope is none that the scope is not below. -/
theorem VariableScopeLinks.ne_of_not_below (hv : g.VariableScopeLinks) (h : g.TreeLinks)
    (hs : g.LiveScope s) (hout : ¬ g.Below s t) : (g.scopeAt s).variableScope ≠ t := by
  rintro rfl
  exact hout (hv.below h hs)

instance : IgnoresTree fun g : ScopeGraph => (g.scopeAt t).kind :=
  ⟨field_modifyScope (·.kind) (fun _ => by rfl) ..⟩

theorem variableScope_mergeTree (h : g.TreeLinks) (hv : g.VariableScopeLinks) (hs : g.LiveScope src)
    (hd : g.LiveScope dst) (hout : ¬ g.Below dst src) (ht : g.LiveScope t) (hts : t ≠ src) :
    ((g.mergeTree src dst).scopeAt t).variableScope =
      redirect src (g.scopeAt dst).variableScope (g.scopeAt t).variableScope := by
  have hstart : SameBelow g (g.modifyScope src ({ · with children := [] })) src :=
    SameBelow.modifyScope ⟨rfl, fun _ _ => rfl⟩ (.inr (.inl rfl))
  have hkids := redirects_children h hs (hv.ne_of_not_below h hd hout) (fun c hc => hc)
    (fun {m c} hm => (hm.modifyScope (s := c) (f := ({ · with upper := some dst }))
      (.inr (.inr fun _ => rfl))).modifyScope
        (f := fun sc => { sc with children := sc.children ++ [c] }) (.inl hout))
    (fun m c t => by
      rw [field_modifyScope (·.variableScope) fun _ => by rfl,
        field_modifyScope (·.variableScope) fun _ => by rfl]) hstart
  refine Redirects.eq_redirect ?_ h hv hkids.2 ht hts
  refine Redirects.trans (.of_eq fun t => ?_) hkids.1 (hv.ne_of_not_below h hd hout)
  exact field_modifyScope (·.variableScope) (fun _ => by rfl) ..

theorem variableScope_replaceTree (h : g.TreeLinks) (hv : g.VariableScopeLinks) (hs : g.LiveScope src)
    (hup : g.Up src dst) (hnew : new.Perm (g.scopeAt src).children) (ht : g.LiveScope t)
    (hts : t ≠ src) :
    ((g.replaceTree src (g.scopeAt dst).variableScope dst new).scopeAt t).variableScope =
      redirect src (g.scopeAt dst).variableScope (g.scopeAt t).variableScope := by
  have hout := h.not_below_of_up hs hup
  have hne := hv.ne_of_not_below h (h.upper_live hs hup) hout
  have hstart : SameBelow g (g.modifyScope dst fun sc =>
      { sc with children := spliceChildren sc.children src new }) src :=
    SameBelow.modifyScope ⟨rfl, fun _ _ => rfl⟩ (.inl hout)
  have hkids := redirects_children h hs hne (fun c hc => hnew.mem_iff.mp hc)
    (fun {m c} hm => hm.modifyScope (s := c) (f := ({ · with upper := some dst })) (.inr (.inr fun _ => rfl)))
    (fun m c t => field_modifyScope (·.variableScope) (fun _ => by rfl) ..) hstart
  unfold replaceTree liftChildren
  rw [field_modifyScope (·.variableScope) fun _ => by rfl]
  refine Redirects.eq_redirect ?_ h hv (fun c hc => hkids.2 c (hnew.mem_iff.mpr hc)) ht hts
  refine Redirects.trans (.of_eq fun t => ?_) hkids.1 hne
  exact field_modifyScope (·.variableScope) (fun _ => by rfl) ..

/-- `src` has become a part of `dst`, and what pointed at it points at the variable scope of
`dst`. -/
structure Repointed (g g' : ScopeGraph) (src dst : ScopeId) :
    Prop extends Absorbed g g' src dst where
  gone : ¬ g'.LiveScope src
  kind : ∀ t, g'.LiveScope t → (g'.scopeAt t).kind = (g.scopeAt t).kind
  variableScope : ∀ t, g'.LiveScope t → (g'.scopeAt t).variableScope =
    redirect src (g.scopeAt dst).variableScope (g.scopeAt t).variableScope

/-- The variable scopes of the children of `src` can be right below `dst`: `src` holds its variables
itself, or has the variable scope of `dst`, or has no children but such that hold theirs. -/
def Fits (g : ScopeGraph) (src dst : ScopeId) : Prop := (g.scopeAt src).variableScope = src ∨
    (g.scopeAt src).variableScope = (g.scopeAt dst).variableScope ∨
    ∀ c ∈ (g.scopeAt src).children, (g.scopeAt c).kind.isVariableScope = true

instance (g : ScopeGraph) (src dst : ScopeId) : Decidable (g.Fits src dst) :=
  inferInstanceAs (Decidable (_ ∨ _ ∨ ∀ c ∈ _, _))

namespace Repointed

variable (h : Repointed g g' src dst)

include h

theorem live_iff : g'.LiveScope t ↔ g.LiveScope t ∧ t ≠ src :=
  ⟨fun ht => ⟨h.live_old ht, fun he => h.gone (he ▸ ht)⟩, fun ht => h.live_new ht.1 ht.2⟩

theorem variableScope_destination :
    (g'.scopeAt dst).variableScope = (g.scopeAt dst).variableScope := by
  rw [h.variableScope dst h.live_destination, redirect]
  split <;> rfl

/-- The variable scopes are right just where they can be. -/
theorem links_iff (hv : g.VariableScopeLinks) : g'.VariableScopeLinks ↔ g.Fits src dst := by
  constructor
  · intro hv'
    by_contra hfits
    simp only [Fits, not_or, not_forall, Bool.not_eq_true] at hfits
    obtain ⟨hown, hother, c, hc, hkind⟩ := hfits
    obtain ⟨hclive, hup⟩ := (h.tree.mem_children h.source).mp hc
    have hcs : c ≠ src := by
      rintro rfl
      exact h.tree.not_below_of_up hclive hup .refl
    -- The child has kept the pointer of `src`, which is not the one that `dst` has.
    have hc' := h.live_iff.mpr ⟨hclive, hcs⟩
    have heq := hv'.inherited hc' (by rwa [h.kind c hc']) (h.up_destination hc' hup)
    rw [h.variableScope c hc', h.variableScope_destination, hv.inherited hclive hkind hup,
      redirect_of_ne hown] at heq
    exact hother heq
  · intro hfits
    refine ⟨fun {t} ht hholds => ?_, fun {t u} ht hkind hup => ?_⟩
    · obtain ⟨htlive, hts⟩ := h.live_iff.mp ht
      rw [holdsVariables, h.kind t ht, h.upper ht, Option.isNone_map] at hholds
      rw [h.variableScope t ht, hv.own htlive hholds, redirect_of_ne hts]
    · obtain ⟨htlive, -⟩ := h.live_iff.mp ht
      rw [h.kind t ht] at hkind
      rw [h.variableScope t ht]
      rcases (h.up_cases ht).mp hup with ⟨rfl, hsrc⟩ | ⟨hne, hup⟩
      · rw [h.variableScope_destination, hv.inherited htlive hkind hsrc]
        rcases hfits with hown | hsame | hkinds
        · rw [hown, redirect_self]
        · rw [hsame, redirect]
          split <;> rfl
        · have hvar := hkinds t ((h.tree.mem_children h.source).mpr ⟨htlive, hsrc⟩)
          rw [hkind] at hvar
          cases hvar
      · have hulive := h.live_iff.mpr ⟨h.tree.upper_live htlive hup, hne⟩
        rw [h.variableScope u hulive, hv.inherited htlive hkind hup]

end Repointed

theorem repointed_mergeScope (h : g.TreeLinks) (hv : g.VariableScopeLinks) (hs : g.LiveScope src)
    (hd : g.LiveScope dst) (hout : ¬ g.Below dst src) :
    (g.mergeScope src dst).TreeLinks ∧ Repointed g (g.mergeScope src dst) src dst := by
  have hne : dst ≠ src := fun he => hout (he ▸ .refl)
  obtain ⟨moved, houtline, heq⟩ := mergeScope_eq_moved outline g src dst
  have htree := treeView_of_outline houtline
  obtain ⟨hmoved, habs, hlive⟩ := h.mergeTree hs hd hout htree
  have hs' : moved.LiveScope src := hlive ▸ hs
  have hleaf : (moved.scopeAt src).children = [] := by
    rw [children_congr htree, (links_mergeTree h hs hd hne src).2, if_neg (Ne.symm hne), if_pos rfl]
  have hret : ∀ {t}, (moved.detachScope src).LiveScope t ↔ g.LiveScope t ∧ t ≠ src := by
    intro t
    rw [(Retired.detachScope hmoved hs').live, hlive]
  rw [heq]
  refine ⟨hmoved.detachScope hs' hleaf, ⟨⟨h, hs, hd, hout, fun ht => (hret.mp ht).1,
    fun ht hts => hret.mpr ⟨ht, hts⟩, fun ht => ?_⟩, fun hsrc => (hret.mp hsrc).2 rfl, ?_, ?_⟩⟩
  · rw [upper_detachScope hmoved hs', habs.upper (hlive ▸ (hret.mp ht).1)]
  · intro t _
    rw [scopeAt_detachScope hmoved hs', kind_eq_of_outline houtline]
    exact view_mergeTree fun g => (g.scopeAt t).kind
  · intro t ht
    obtain ⟨htlive, hts⟩ := hret.mp ht
    rw [scopeAt_detachScope hmoved hs', ← variableScope_mergeTree h hv hs hd hout htlive hts]
    exact variableScope_congr houtline t

theorem repointed_replaceScope (h : g.TreeLinks) (hv : g.VariableScopeLinks) (hs : g.LiveScope src)
    (hup : g.Up src dst) (hnew : new.Perm (g.scopeAt src).children) :
    (g.replaceScope src new).TreeLinks ∧ Repointed g (g.replaceScope src new) src dst := by
  obtain ⟨hlinks, habs, hlive⟩ := h.replaceScope hs hup hnew
  have houtline : (g.handUp src dst new).outline = _ := view_handUp outline
  rw [replaceScope_eq hup] at hlinks habs hlive ⊢
  refine ⟨hlinks, ⟨habs, fun hsrc => (hlive.mp hsrc).2 rfl, fun t ht => ?_, fun t ht => ?_⟩⟩
  · rw [Retired.scopeAt_retireScope (hlive.mp ht).2, kind_eq_of_outline houtline]
    exact view_replaceTree fun g => (g.scopeAt t).kind
  · obtain ⟨htlive, hts⟩ := hlive.mp ht
    rw [Retired.scopeAt_retireScope hts, variableScope_congr houtline,
      variableScope_replaceTree h hv hs hup hnew htlive hts]

/-- The scope above always fits. -/
theorem VariableScopeLinks.fits_upper (hv : g.VariableScopeLinks) (hs : g.LiveScope src)
    (hup : g.Up src dst) : g.Fits src dst := by
  by_cases hown : (g.scopeAt src).variableScope = src
  · exact .inl hown
  · obtain ⟨u, hu, heq⟩ := hv.upper_of_ne hs hown
    cases upper_unique g hup hu
    exact .inr (.inl heq.symm)

end Absorb

/-! Scopes that come and go. -/

theorem VariableScopeLinks.addScope {upper : Option ScopeId} (kind : ScopeKind) (block : NodeId)
    (hv : g.VariableScopeLinks) (h : g.TreeLinks) (hu : ∀ u, upper = some u → g.LiveScope u) :
    (g.addScope kind block upper).2.VariableScopeLinks := by
  have hlt : ∀ u, upper = some u → u < g.scopes.size := fun u he => (hu u he).1
  refine ⟨fun {s} hs hholds => ?_, fun {s u} hs hkind hup => ?_⟩
  · rcases addScope_cases kind block hlt hs with ⟨hs, children, heq⟩ | ⟨rfl, hnew⟩
    · rw [holdsVariables, heq] at hholds
      rw [heq]
      exact hv.own hs hholds
    · rw [holdsVariables, hnew] at hholds
      rw [hnew]
      cases upper with
      | none => rfl
      | some u =>
        have hkind : kind.isVariableScope = true := by simpa using hholds
        simp [newVariableScope, hkind]
  · rcases addScope_cases kind block hlt hs with ⟨hs, children, heq⟩ | ⟨rfl, hnew⟩
    · rw [Up, heq] at hup
      rw [heq] at hkind ⊢
      obtain ⟨_, hequ⟩ := scopeAt_addScope_old kind block hlt (h.upper_live hs hup)
      rw [hequ]
      exact hv.inherited hs hkind hup
    · rw [Up, hnew] at hup
      rw [hnew] at hkind ⊢
      have hupper : upper = some u := hup
      obtain ⟨_, hequ⟩ := scopeAt_addScope_old kind block hlt (hu u hupper)
      rw [hequ, hupper]
      simp [newVariableScope, hkind]

theorem VariableScopeLinks.detachScope (hv : g.VariableScopeLinks) (h : g.TreeLinks)
    (hs : g.LiveScope s) : (g.detachScope s).VariableScopeLinks := by
  have hlive := (Retired.detachScope h hs).live
  refine ⟨fun {t} ht hholds => ?_, fun {t u} ht hkind hup => ?_⟩
  · rw [holdsVariables, scopeAt_detachScope h hs] at hholds
    rw [scopeAt_detachScope h hs]
    exact hv.own ((hlive t).mp ht).1 hholds
  · rw [scopeAt_detachScope h hs] at hkind ⊢
    rw [scopeAt_detachScope h hs]
    rw [up_congr (upper_detachScope h hs)] at hup
    exact hv.inherited ((hlive t).mp ht).1 hkind hup

theorem variableScopeLinks_removeScope (h : g.TreeLinks) (hv : g.VariableScopeLinks)
    (hs : g.LiveScope s) : (g.removeScope s).TreeLinks ∧ (g.removeScope s).VariableScopeLinks := by
  refine removeScope_of_removeLeaf (fun g => g.TreeLinks ∧ g.VariableScopeLinks) And.left ?_ ⟨h, hv⟩
    hs
  rintro g s ⟨h, hv⟩ hs hleaf
  obtain ⟨bare, houtline, heq⟩ := removeLeaf_eq outline g s
  have htree := treeView_of_outline houtline
  have hs' : bare.LiveScope s := hs.of_tree htree
  rw [heq]
  exact ⟨(h.congr htree).detachScope hs' ((children_congr htree s).trans hleaf),
    (hv.congr houtline).detachScope (h.congr htree) hs'⟩

end ScopeGraph

/-! Whole runs. -/

namespace ScopeStep

open ScopeGraph

/-- What an operation asks of the tree of scopes. Operations on variables and references ask nothing
of it. -/
def TreeLawful (g : ScopeGraph) : ScopeStep → Prop
  | .addScope _ _ upper => ∀ u ∈ upper, g.LiveScope u
  | .removeScope s => g.LiveScope s
  | .replaceScope s children =>
    g.LiveScope s ∧ ∀ cs ∈ children, cs.Perm (g.scopeAt s).children
  | .mergeScope source destination =>
    g.LiveScope source ∧ g.LiveScope destination ∧ source ∉ g.ancestors destination
  | _ => True

/-- A merge fits when the variable scopes can be right after it. -/
def MergeFits (g : ScopeGraph) : ScopeStep → Prop
  | .mergeScope source destination => g.Fits source destination
  | _ => True

/-- Each operation of a run is lawful in the tree of scopes when its turn comes. -/
def TreeLawfulRun (a : Arena) : List ScopeStep → ScopeGraph → Prop
  | [], _ => True
  | step :: steps, g => step.TreeLawful g ∧ TreeLawfulRun a steps (step.perform a g).2

/-- Each merge of a run fits when its turn comes. -/
def MergesFit (a : Arena) : List ScopeStep → ScopeGraph → Prop
  | [], _ => True
  | step :: steps, g => step.MergeFits g ∧ MergesFit a steps (step.perform a g).2

instance decidableTreeLawful (g : ScopeGraph) : (step : ScopeStep) → Decidable (step.TreeLawful g)
  | .addScope _ _ upper => inferInstanceAs (Decidable (∀ u ∈ upper, g.LiveScope u))
  | .removeScope s => inferInstanceAs (Decidable (g.LiveScope s))
  | .replaceScope s children =>
    inferInstanceAs (Decidable (g.LiveScope s ∧ ∀ cs ∈ children, cs.Perm (g.scopeAt s).children))
  | .mergeScope _ _ => inferInstanceAs (Decidable (_ ∧ _))
  | .declare .. | .addReference .. | .resolve _ | .registerNode .. | .removeVariable ..
  | .removeReference .. | .synthesizeReference .. | .declareReactive .. | .declareImplicit ..
  | .resolveStores => inferInstanceAs (Decidable True)

instance decidableMergeFits (g : ScopeGraph) : (step : ScopeStep) → Decidable (step.MergeFits g)
  | .mergeScope source destination => inferInstanceAs (Decidable (g.Fits source destination))
  | .addScope .. | .removeScope _ | .replaceScope .. | .declare .. | .addReference .. | .resolve _
  | .registerNode .. | .removeVariable .. | .removeReference .. | .synthesizeReference ..
  | .declareReactive .. | .declareImplicit .. | .resolveStores => inferInstanceAs (Decidable True)

instance decidableTreeLawfulRun (a : Arena) :
    (steps : List ScopeStep) → (g : ScopeGraph) → Decidable (TreeLawfulRun a steps g)
  | [], _ => inferInstanceAs (Decidable True)
  | _ :: steps, _ =>
    have := decidableTreeLawfulRun a steps
    inferInstanceAs (Decidable (_ ∧ _))

instance decidableMergesFit (a : Arena) :
    (steps : List ScopeStep) → (g : ScopeGraph) → Decidable (MergesFit a steps g)
  | [], _ => inferInstanceAs (Decidable True)
  | _ :: steps, _ =>
    have := decidableMergesFit a steps
    inferInstanceAs (Decidable (_ ∧ _))

variable {a : Arena} {g : ScopeGraph} {step : ScopeStep} {steps : List ScopeStep}

variable (h : g.TreeLinks) (hv : g.VariableScopeLinks)

include h hv

/-- From right variable scopes, a lawful operation keeps the tree, and keeps them right just when it
fits. -/
theorem TreeLawful.perform (hstep : step.TreeLawful g) : (step.perform a g).2.TreeLinks ∧
    ((step.perform a g).2.VariableScopeLinks ↔ step.MergeFits g) := by
  have kept : ∀ {g' : ScopeGraph}, g'.outline = g.outline →
      g'.TreeLinks ∧ (g'.VariableScopeLinks ↔ True) := fun hg' =>
    ⟨h.congr (treeView_of_outline hg'), iff_true_intro (hv.congr hg')⟩
  cases step with
  | addScope kind block upper =>
    exact ⟨h.addScope hstep, iff_true_intro (hv.addScope kind block h hstep)⟩
  | removeScope s =>
    obtain ⟨htree, hlinks⟩ := variableScopeLinks_removeScope h hv hstep
    exact ⟨htree, iff_true_intro hlinks⟩
  | replaceScope s children =>
    have hperm : (children.getD (g.scopeAt s).children).Perm (g.scopeAt s).children := by
      cases children with
      | none => exact .refl _
      | some cs => exact hstep.2 cs rfl
    cases hup : (g.scopeAt s).upper with
    | none =>
      refine kept ?_
      simp only [ScopeStep.perform, ScopeGraph.replaceScope, hup]
    | some dst =>
      obtain ⟨htree, hrepointed⟩ := repointed_replaceScope h hv hstep.1 hup hperm
      exact ⟨htree, iff_true_intro ((hrepointed.links_iff hv).mpr (hv.fits_upper hstep.1 hup))⟩
  | mergeScope source destination =>
    obtain ⟨hs, hd, hout⟩ := hstep
    rw [h.mem_ancestors hd] at hout
    obtain ⟨htree, hrepointed⟩ := repointed_mergeScope h hv hs hd hout
    exact ⟨htree, hrepointed.links_iff hv⟩
  | declare s name identifier kind => exact kept (view_declare outline)
  | addReference s identifier name access init => exact kept (view_pushReference outline)
  | resolve r => exact kept (view_resolveAlong outline ..)
  | registerNode n s => exact kept (outline_modifyScope fun _ => by simp)
  | removeVariable pattern s => exact kept (view_removeVariable outline)
  | removeReference identifier s => exact kept (view_removeReference outline)
  | synthesizeReference identifier v s access => exact kept (view_synthesizeReference outline)
  | declareReactive s identifier => exact kept (view_declareReactive outline)
  | declareImplicit s name => exact kept (view_declareImplicit outline)
  | resolveStores => exact kept (view_resolveStores outline)

/-- The variable scopes are right all along a run just when each of its merges fits. -/
theorem TreeLawfulRun.links_iff (hrun : TreeLawfulRun a steps g) :
    (∀ k, (run a (steps.take k) g).VariableScopeLinks) ↔ MergesFit a steps g := by
  induction steps generalizing g with
  | nil => simpa [run, MergesFit] using hv
  | cons step steps ih =>
    obtain ⟨htree, hlinks⟩ := hrun.1.perform h hv
    have hcons : ∀ k, run a ((step :: steps).take (k + 1)) g =
        run a (steps.take k) (step.perform a g).2 := fun _ => rfl
    constructor
    · intro hall
      have hone := hall 1
      exact ⟨hlinks.mp hone, (ih htree hone hrun.2).mp fun k => hcons k ▸ hall (k + 1)⟩
    · rintro ⟨hfits, hrest⟩ k
      cases k with
      | zero => exact hv
      | succ k => exact hcons k ▸ (ih htree (hlinks.mpr hfits) hrun.2).mpr hrest k

theorem TreeLawfulRun.treeLinks (hrun : TreeLawfulRun a steps g) (hfits : MergesFit a steps g) :
    (run a steps g).TreeLinks := by
  induction steps generalizing g with
  | nil => exact h
  | cons step steps ih =>
    obtain ⟨htree, hlinks⟩ := hrun.1.perform h hv
    exact ih htree (hlinks.mpr hfits.1) hrun.2 hfits.2

end ScopeStep

open ScopeGraph ScopeStep

/-- A run from nothing keeps the variable scopes of all live scopes right, after each operation,
just when each merge in it fits. At its end each live scope then points at the nearest scope above
it, or itself, that holds variables. -/
theorem run_variableScope_nearest {a : Arena} {steps : List ScopeStep}
    (hrun : TreeLawfulRun a steps .empty) :
    ((∀ k, (run a (steps.take k) .empty).VariableScopeLinks) ↔ MergesFit a steps .empty) ∧
      (MergesFit a steps .empty → ∀ s, (run a steps .empty).LiveScope s →
        ((run a steps .empty).ancestors s).find? (run a steps .empty).holdsVariables =
          some ((run a steps .empty).scopeAt s).variableScope) := by
  have hempty : ∀ {s}, ¬ ScopeGraph.empty.LiveScope s := fun {s} h => Nat.not_lt_zero s h.1
  have htree := WellFormed.empty.tree
  have hlinks : ScopeGraph.empty.VariableScopeLinks :=
    ⟨fun hs => absurd hs hempty, fun hs => absurd hs hempty⟩
  have hiff := hrun.links_iff htree hlinks
  refine ⟨hiff, fun hfits s hs => ?_⟩
  have hend := hiff.mpr hfits steps.length
  rw [take_length] at hend
  exact hend.nearest (hrun.treeLinks htree hlinks hfits) hs

/-- A function with two blocks in it is merged into another one, and the outer block makes way for
the inner. Then a function in there is dissolved, and a block is merged into its neighbour. -/
def hoistRun : List ScopeStep :=
  [.addScope .global 0 none, .addScope .function 1 (some 0), .addScope .block 2 (some 1),
    .addScope .block 3 (some 2), .addScope .function 4 (some 0), .declare 1 "x" 5 .variable,
    .addReference 3 6 "x" .read false, .resolve 0, .mergeScope 1 4, .replaceScope 2 none,
    .addScope .function 7 (some 3), .addScope .catch 8 (some 5), .replaceScope 5 none,
    .addScope .block 9 (some 4), .mergeScope 3 7, .resolve 0, .removeReference 6 7]

theorem run_variableScope_nearest_hoist :
    MergesFit default hoistRun .empty ∧
      (run default hoistRun .empty).LiveScope 6 ∧
      ((run default hoistRun .empty).ancestors 6).find? (run default hoistRun .empty).holdsVariables =
        some ((run default hoistRun .empty).scopeAt 6).variableScope ∧
      ((run default hoistRun .empty).scopeAt 6).variableScope = 4 ∧
      ∀ k, (run default (hoistRun.take k) .empty).VariableScopeLinks := by
  have hrun : TreeLawfulRun default hoistRun .empty := by decide +kernel
  have hfits : MergesFit default hoistRun .empty := by decide +kernel
  have hlive : (run default hoistRun .empty).LiveScope 6 := by decide +kernel
  obtain ⟨hiff, hnearest⟩ := run_variableScope_nearest hrun
  exact ⟨hfits, hlive, hnearest hfits 6 hlive, by decide +kernel, hiff.mpr hfits⟩

/-- A block with a block in it is merged from one function into another. -/
def strayRun : List ScopeStep :=
  [.addScope .global 0 none, .addScope .function 1 (some 0), .addScope .function 2 (some 0),
    .addScope .block 3 (some 1), .addScope .block 4 (some 3), .mergeScope 3 2]

/-- The inner block still points at the function that it came from. -/
theorem strayRun_keeps_pointer :
    TreeLawfulRun default strayRun .empty ∧
      (run default strayRun .empty).LiveScope 4 ∧
      ((run default strayRun .empty).scopeAt 4).kind = .block ∧
      ((run default strayRun .empty).scopeAt 4).upper = some 2 ∧
      ((run default strayRun .empty).scopeAt 2).variableScope = 2 ∧
      ((run default strayRun .empty).scopeAt 4).variableScope = 1 := by
  decide +kernel

end Loom
