import Loom.Proofs.Scope.Remove

/-!
The tree after one scope has become a part of another.

What was directly below `src` is directly below `dst` then. A scope that was not below `src` sees
the same scopes above it; one that was sees those up to `src`, then `dst` and those above it.
-/

namespace Loom.ScopeGraph

open Option

variable {g g' : ScopeGraph} {src dst : ScopeId}

/-- The live scopes of `g'` are those of `g`, `src` perhaps excepted, with `dst` in the place of
`src` as an upper scope. -/
structure Absorbed (g g' : ScopeGraph) (src dst : ScopeId) : Prop where
  tree : g.TreeLinks
  source : g.LiveScope src
  destination : g.LiveScope dst
  outside : ¬ g.Below dst src
  live_old : ∀ {t}, g'.LiveScope t → g.LiveScope t
  live_new : ∀ {t}, g.LiveScope t → t ≠ src → g'.LiveScope t
  upper : ∀ {t}, g'.LiveScope t → (g'.scopeAt t).upper = (g.scopeAt t).upper.map (redirect src dst)

theorem below_of_up {s u t : ScopeId} (hu : g.Up s u) : g.Below s t ↔ t = s ∨ g.Below u t := by
  constructor
  · intro hst
    rcases hst.cases_head with heq | ⟨w, hw, hwt⟩
    · exact .inl heq.symm
    · cases upper_unique g hu hw
      exact .inr hwt
  · rintro (rfl | hut)
    · exact .refl
    · exact .head hu hut

namespace Absorbed

variable {s t u : ScopeId}

variable (h : Absorbed g g' src dst)

include h

theorem ne : dst ≠ src := by
  rintro rfl
  exact h.outside .refl

theorem live_destination : g'.LiveScope dst := h.live_new h.destination h.ne

theorem up_iff (ht : g'.LiveScope t) : g'.Up t u ↔ ∃ w, g.Up t w ∧ redirect src dst w = u := by
  rw [Up, h.upper ht, map_eq_some_iff]
  exact Iff.rfl

/-- The step upward from a scope whose upper scope is not `src`. -/
theorem up_of_ne (ht : g'.LiveScope t) (hu : g.Up t u) (hne : u ≠ src) : g'.Up t u :=
  (h.up_iff ht).mpr ⟨u, hu, redirect_of_ne hne⟩

theorem up_destination (ht : g'.LiveScope t) (hu : g.Up t src) : g'.Up t dst :=
  (h.up_iff ht).mpr ⟨src, hu, redirect_self⟩

theorem upper_live (ht : g'.LiveScope t) (hu : g'.Up t u) : g'.LiveScope u := by
  obtain ⟨w, hw, rfl⟩ := (h.up_iff ht).mp hu
  by_cases hws : w = src
  · rw [hws, redirect_self]
    exact h.live_destination
  · rw [redirect_of_ne hws]
    exact h.live_new (h.tree.upper_live (h.live_old ht) hw) hws

/-! Scopes that are not below `src`. -/

theorem live_of_outside (ht : g.LiveScope t) (hout : ¬ g.Below t src) : g'.LiveScope t := by
  refine h.live_new ht ?_
  rintro rfl
  exact hout .refl

theorem up_outside (ht : g.LiveScope t) (hout : ¬ g.Below t src) : g'.Up t u ↔ g.Up t u := by
  have ht' := h.live_of_outside ht hout
  have hne : ∀ {w}, g.Up t w → w ≠ src := by
    rintro w hw rfl
    exact hout (.single hw)
  constructor
  · intro hu
    obtain ⟨w, hw, rfl⟩ := (h.up_iff ht').mp hu
    rw [redirect_of_ne (hne hw)]
    exact hw
  · intro hu
    exact h.up_of_ne ht' hu (hne hu)

theorem below_outside (hs : g.LiveScope s) (hout : ¬ g.Below s src) :
    g'.Below s t ↔ g.Below s t := by
  have hstep : ∀ {m}, g.Below s m → g.LiveScope m ∧ ¬ g.Below m src := fun hm =>
    ⟨h.tree.live_of_below hs hm, fun hms => hout (hm.trans hms)⟩
  constructor
  · intro hst
    induction hst with
    | refl => exact .refl
    | tail _ hu ih => exact ih.tail ((h.up_outside (hstep ih).1 (hstep ih).2).mp hu)
  · intro hst
    induction hst with
    | refl => exact .refl
    | tail hm hu ih => exact ih.tail ((h.up_outside (hstep hm).1 (hstep hm).2).mpr hu)

theorem chain_outside {l : List ScopeId} (hl : g.Chain s l) (hs : g.LiveScope s)
    (hout : ¬ g.Below s src) : g'.Chain s l := by
  induction hl with
  | @top s hnone =>
    refine .top ?_
    rw [h.upper (h.live_of_outside hs hout), hnone]
    rfl
  | step hu _ ih =>
    exact .step ((h.up_outside hs hout).mpr hu)
      (ih (h.tree.upper_live hs hu) fun hus => hout (.head hu hus))

/-! All scopes. -/

theorem rooted (ht : g'.LiveScope t) : ∃ l, g'.Chain t l := by
  obtain ⟨l, hl⟩ := h.tree.rooted (h.live_old ht)
  induction hl with
  | @top t hnone =>
    refine ⟨[t], .top ?_⟩
    rw [h.upper ht, hnone]
    rfl
  | @step t u l hu _ ih =>
    by_cases hus : u = src
    · subst hus
      obtain ⟨l', hl'⟩ := h.tree.rooted h.destination
      exact ⟨_, .step (h.up_destination ht hu) (h.chain_outside hl' h.destination h.outside)⟩
    · obtain ⟨l', hl'⟩ := ih (h.live_new (h.tree.upper_live (h.live_old ht) hu) hus)
      exact ⟨_, .step (h.up_of_ne ht hu hus) hl'⟩

/-- Above a scope that was below `src` stand the scopes up to `src`, then `dst` and those above
it. -/
theorem below_inside (hs : g.LiveScope s) (hin : g.Below s src) (hne : s ≠ src) :
    g'.Below s t ↔ (g.Below s t ∧ g.Below t src ∧ t ≠ src) ∨ g.Below dst t := by
  induction hin using Relation.ReflTransGen.head_induction_on with
  | refl => exact absurd rfl hne
  | @head s u hu hin ih =>
    have hs' := h.live_new hs hne
    have hulive := h.tree.upper_live hs hu
    by_cases hus : u = src
    · subst hus
      rw [below_of_up (h.up_destination hs' hu), h.below_outside h.destination h.outside, below_of_up hu]
      constructor
      · rintro (rfl | hdt)
        · exact .inl ⟨.inl rfl, .single hu, hne⟩
        · exact .inr hdt
      · rintro (⟨heq | hut, htu, hne'⟩ | hdt)
        · exact .inl heq
        · exact absurd (h.tree.below_antisymm h.source hut htu).symm hne'
        · exact .inr hdt
    · rw [below_of_up (h.up_of_ne hs' hu hus), ih hulive hus, below_of_up hu]
      constructor
      · rintro (rfl | ⟨hut, hts, hne'⟩ | hdt)
        · exact .inl ⟨.inl rfl, .head hu hin, hne⟩
        · exact .inl ⟨.inr hut, hts, hne'⟩
        · exact .inr hdt
      · rintro (⟨heq | hut, hts, hne'⟩ | hdt)
        · exact .inl heq
        · exact .inr (.inl ⟨hut, hts, hne'⟩)
        · exact .inr (.inr hdt)

theorem below_antisymm (hs : g'.LiveScope s) (hst : g'.Below s t) (hts : g'.Below t s) : s = t := by
  obtain ⟨l, hl⟩ := h.rooted hs
  exact hl.antisymm hst hts

/-- The scopes strictly between a scope and `src` are those strictly between it and `dst` then. -/
theorem between_iff (hs : g.LiveScope s) (hin : g.Below s src) (ht : g'.LiveScope t) :
    g'.Below (redirect src dst s) t ∧ g'.Below t dst ∧ t ≠ dst ↔
      g.Below s t ∧ g.Below t src ∧ t ≠ src := by
  by_cases hsrc : s = src
  · subst hsrc
    rw [redirect_self]
    constructor
    · rintro ⟨hdt, htd, hne⟩
      exact absurd (h.below_antisymm ht htd hdt) hne
    · rintro ⟨hst, hts, hne⟩
      exact absurd (h.tree.below_antisymm h.source hst hts).symm hne
  · rw [redirect_of_ne hsrc, h.below_inside hs hin hsrc]
    constructor
    · rintro ⟨hbetween | hdt, htd, hne⟩
      · exact hbetween
      · have hdt' := (h.below_outside h.destination h.outside).mpr hdt
        exact absurd (h.below_antisymm ht htd hdt') hne
    · rintro ⟨hst, hts, hne⟩
      refine ⟨.inl ⟨hst, hts, hne⟩, ?_, ?_⟩
      · exact (h.below_inside (h.live_old ht) hts hne).mpr (.inr .refl)
      · rintro rfl
        exact h.outside hts

theorem up_cases (ht : g'.LiveScope t) :
    g'.Up t u ↔ (u = dst ∧ g.Up t src) ∨ (u ≠ src ∧ g.Up t u) := by
  rw [h.up_iff ht]
  constructor
  · rintro ⟨w, hw, rfl⟩
    by_cases hws : w = src
    · subst hws
      exact .inl ⟨redirect_self, hw⟩
    · rw [redirect_of_ne hws]
      exact .inr ⟨hws, hw⟩
  · rintro (⟨rfl, hu⟩ | ⟨hne, hu⟩)
    · exact ⟨src, hu, redirect_self⟩
    · exact ⟨u, hu, redirect_of_ne hne⟩

/-- The new tree is well-formed when the lists of children say the same as the links upward. -/
theorem treeLinks (hnodup : ∀ {t}, g'.LiveScope t → (g'.scopeAt t).children.Nodup)
    (hmem : ∀ {t c}, g'.LiveScope t →
      (c ∈ (g'.scopeAt t).children ↔ g'.LiveScope c ∧ ((t = dst ∧ g.Up c src) ∨ (t ≠ src ∧ g.Up c t)))) :
    g'.TreeLinks where
  rooted := h.rooted
  upper_live := h.upper_live
  children_nodup := hnodup
  mem_children := by
    intro t c ht
    rw [hmem ht]
    exact and_congr_right fun hc => (h.up_cases hc).symm

/-- What stands above `src` itself does not change, as long as it is there. -/
theorem below_source (hs : g'.LiveScope src) : g'.Below src t ↔ g.Below src t := by
  cases hup : (g.scopeAt src).upper with
  | none =>
    have htop : g.Chain src [src] := .top hup
    have htop' : g'.Chain src [src] := by
      refine .top ?_
      rw [h.upper hs, hup]
      rfl
    rw [← htop.mem_iff, ← htop'.mem_iff]
  | some u =>
    have hu : g.Up src u := hup
    have hout : ¬ g.Below u src := h.tree.not_below_of_up h.source hu
    have hne : u ≠ src := fun he => hout (he ▸ .refl)
    rw [below_of_up (h.up_of_ne hs hu hne), below_of_up hu,
      h.below_outside (h.tree.upper_live h.source hu) hout]

/-- When `dst` was directly above `src`, only `src` is no longer on the way. -/
theorem below_redirect (hup : g.Up src dst) (hs : g.LiveScope s) :
    g'.Below (redirect src dst s) t ↔ g.Below s t ∧ t ≠ src := by
  have hne : g.Below dst t → t ≠ src := by
    rintro hdt rfl
    exact h.outside hdt
  by_cases hsrc : s = src
  · subst hsrc
    rw [redirect_self, h.below_outside h.destination h.outside, below_of_up hup]
    tauto
  · rw [redirect_of_ne hsrc]
    by_cases hin : g.Below s src
    · rw [h.below_inside hs hin hsrc]
      constructor
      · rintro (⟨hst, -, hts⟩ | hdt)
        · exact ⟨hst, hts⟩
        · exact ⟨(hin.tail hup).trans hdt, hne hdt⟩
      · rintro ⟨hst, hts⟩
        rcases below_total hst hin with hle | hge
        · exact .inl ⟨hst, hle, hts⟩
        · exact .inr (((below_of_up hup).mp hge).resolve_left hts)
    · rw [h.below_outside hs hin]
      refine (and_iff_left_of_imp fun hst => ?_).symm
      rintro rfl
      exact hin hst

/-! The way of a reference. -/

variable {r : ReferenceId} (hlive : g.LiveScope (g.referenceAt r).source)
  (hsource : (g'.referenceAt r).source = redirect src dst (g.referenceAt r).source)
  (howner : g'.owner? r = (g.owner? r).map (redirect src dst))

include hlive hsource howner

/-- A reference that did not pass through `src` goes its old way. -/
theorem passesThrough_outside
    (hbelow : ∀ {o}, g.owner? r = some o → g.Below (g.referenceAt r).source o)
    (hnot : ¬ g.PassesThrough r src) (ht : g'.LiveScope t) :
    g'.PassesThrough r t ↔ g.PassesThrough r t := by
  rw [PassesThrough, PassesThrough, hsource, howner]
  by_cases hin : g.Below (g.referenceAt r).source src
  · -- The reference is bound at `src` or below it.
    obtain ⟨o, ho, hnot⟩ : ∃ o, g.owner? r = some o ∧ ¬ (g.Below src o ∧ src ≠ o) := by
      by_contra hall
      push Not at hall
      exact hnot ⟨hin, hall⟩
    have hoin : g.Below o src := by
      rcases below_total (hbelow ho) hin with hos | hso
      · exact hos
      · by_cases heq : src = o
        · exact heq ▸ .refl
        · exact absurd ⟨hso, heq⟩ hnot
    simp only [ho, map_some, some.injEq, forall_eq']
    by_cases hos : o = src
    · subst hos
      rw [redirect_self]
      exact h.between_iff hlive hin ht
    · have hssrc : (g.referenceAt r).source ≠ src := by
        intro heq
        have hso := hbelow ho
        rw [heq] at hso
        exact hos (h.tree.below_antisymm h.source hso hoin).symm
      rw [redirect_of_ne hos, redirect_of_ne hssrc, h.below_inside hlive hin hssrc]
      constructor
      · rintro ⟨⟨hst, hts, hne⟩ | hdt, hto, hneo⟩
        · rcases (h.below_inside (h.live_old ht) hts hne).mp hto with ⟨hto, -⟩ | hdo
          · exact ⟨hst, hto, hneo⟩
          · exact absurd (hdo.trans hoin) h.outside
        · have hout : ¬ g.Below t src := fun hts => h.outside (hdt.trans hts)
          have hto := (h.below_outside (h.live_old ht) hout).mp hto
          exact absurd (hto.trans hoin) hout
      · rintro ⟨hst, hto, hneo⟩
        have hne : t ≠ src := by
          rintro rfl
          exact hos (h.tree.below_antisymm h.source hto hoin).symm
        exact ⟨.inl ⟨hst, hto.trans hoin, hne⟩,
          (h.below_inside (h.live_old ht) (hto.trans hoin) hne).mpr (.inl ⟨hto, hoin, hos⟩), hneo⟩
  · have hssrc : (g.referenceAt r).source ≠ src := by
      intro heq
      exact hin (heq ▸ .refl)
    rw [redirect_of_ne hssrc, h.below_outside hlive hin]
    refine and_congr_right fun hst => ?_
    have hout : ¬ g.Below t src := fun hts => hin (hst.trans hts)
    cases ho : g.owner? r with
    | none => simp
    | some o =>
      have hos : o ≠ src := by
        rintro rfl
        exact hin (hbelow ho)
      simp only [map_some, some.injEq, forall_eq', redirect_of_ne hos,
        h.below_outside (h.live_old ht) hout]

theorem passesThrough_above (hup : g.Up src dst)
    (hbelow : ∀ {o}, g.owner? r = some o → g.Below (g.referenceAt r).source o) (ht : g.LiveScope t)
    (hts : t ≠ src) : g'.PassesThrough r t ↔ g.PassesThrough r t := by
  have hfrom : g'.Below t = fun o => g.Below t o ∧ o ≠ src := by
    funext o
    rw [← h.below_redirect hup ht, redirect_of_ne hts]
  rw [PassesThrough, hsource, howner, h.below_redirect hup hlive, and_iff_left hts, hfrom]
  refine and_congr_right fun hst => ?_
  cases ho : g.owner? r with
  | none => simp
  | some o =>
    simp only [map_some, some.injEq, forall_eq']
    by_cases hos : o = src
    · subst hos
      rw [redirect_self]
      constructor
      · rintro ⟨⟨htd, -⟩, htne⟩
        rcases below_total hst (hbelow ho) with hle | hge
        · exact ⟨hle, hts⟩
        · have hdt := ((below_of_up hup).mp hge).resolve_left hts
          exact absurd (h.tree.below_antisymm ht htd hdt) htne
      · rintro ⟨hto, -⟩
        refine ⟨⟨hto.tail hup, h.ne⟩, ?_⟩
        rintro rfl
        exact h.outside hto
    · rw [redirect_of_ne hos]
      simp [hos]

/-! The flow of a reference. -/

theorem flow_outside {p : Prop}
    (hthrough : ∀ {t}, g'.LiveScope t →
      (r ∈ (g'.scopeAt t).through ↔ r ∈ (g.scopeAt t).through ∧ t ≠ src))
    (hflow : g.Flow p r) (hnot : r ∉ (g.scopeAt src).through) : g'.Flow p r := by
  have hpass : p → ¬ g.PassesThrough r src := fun hp hpass =>
    hnot ((hflow.mem_through h.source).mpr ⟨hp, hpass⟩)
  refine ⟨?_, ?_, ?_⟩
  · intro o' ho'
    obtain ⟨o, ho, rfl⟩ := map_eq_some_iff.mp (howner.symm.trans ho')
    have hso := hflow.below_owner ho
    rw [hsource]
    by_cases hin : g.Below (g.referenceAt r).source src
    · by_cases hos : o = src
      · subst hos
        rw [redirect_self]
        by_cases hsrc : (g.referenceAt r).source = o
        · rw [hsrc, redirect_self]
          exact .refl
        · rw [redirect_of_ne hsrc]
          exact (h.below_inside hlive hin hsrc).mpr (.inr .refl)
      · -- The owner is strictly below `src`, since the reference does not pass through it.
        have hoin : g.Below o src := by
          rcases below_total hso hin with hle | hge
          · exact hle
          · refine absurd ⟨hin, ?_⟩ (hpass (hflow.settled_of_bound ho))
            intro o'' ho''
            cases ho.symm.trans ho''
            exact ⟨hge, Ne.symm hos⟩
        have hsrc : (g.referenceAt r).source ≠ src := by
          intro heq
          rw [heq] at hso
          exact hos (h.tree.below_antisymm h.source hso hoin).symm
        rw [redirect_of_ne hos, redirect_of_ne hsrc]
        exact (h.below_inside hlive hin hsrc).mpr (.inl ⟨hso, hoin, hos⟩)
    · have hsrc : (g.referenceAt r).source ≠ src := fun heq => hin (heq ▸ .refl)
      have hos : o ≠ src := fun heq => hin (heq ▸ hso)
      rw [redirect_of_ne hos, redirect_of_ne hsrc]
      exact (h.below_outside hlive hin).mpr hso
  · intro t ht
    rw [hthrough ht, hflow.mem_through (h.live_old ht)]
    constructor
    · rintro ⟨⟨hp, hthr⟩, -⟩
      exact ⟨hp, (h.passesThrough_outside hlive hsource howner hflow.below_owner (hpass hp) ht).mpr hthr⟩
    · rintro ⟨hp, hthr⟩
      have hthr := (h.passesThrough_outside hlive hsource howner hflow.below_owner (hpass hp) ht).mp hthr
      refine ⟨⟨hp, hthr⟩, ?_⟩
      rintro rfl
      exact hpass hp hthr
  · intro o' ho'
    obtain ⟨o, ho, -⟩ := map_eq_some_iff.mp (howner.symm.trans ho')
    exact hflow.settled_of_bound ho

theorem flow_above (hup : g.Up src dst) (hgone : ¬ g'.LiveScope src) {p : Prop}
    (hthrough : ∀ {t}, g'.LiveScope t → (r ∈ (g'.scopeAt t).through ↔ r ∈ (g.scopeAt t).through))
    (hflow : g.Flow p r) : g'.Flow p r := by
  refine ⟨?_, ?_, ?_⟩
  · intro o' ho'
    obtain ⟨o, ho, rfl⟩ := map_eq_some_iff.mp (howner.symm.trans ho')
    have hso := hflow.below_owner ho
    rw [hsource]
    refine (h.below_redirect hup hlive).mpr ⟨?_, redirect_ne h.ne o⟩
    by_cases hos : o = src
    · rw [hos, redirect_self]
      exact (hos ▸ hso).tail hup
    · rw [redirect_of_ne hos]
      exact hso
  · intro t ht
    have hts : t ≠ src := by
      rintro rfl
      exact hgone ht
    rw [hthrough ht, hflow.mem_through (h.live_old ht),
      h.passesThrough_above hlive hsource howner hup hflow.below_owner (h.live_old ht) hts]
  · intro o' ho'
    obtain ⟨o, ho, -⟩ := map_eq_some_iff.mp (howner.symm.trans ho')
    exact hflow.settled_of_bound ho

end Absorbed

end Loom.ScopeGraph
