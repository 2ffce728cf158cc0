import Loom.Proofs.Scope.Lexical

/-!
What names mean once a scope has dissolved.

The variables of the scope belong to the scope above it then, and there they are seen by more
references than before. Those made in the scope or below it mean what they meant. A reference that
used to pass through the scope above may mean one of these variables now, but it keeps its binding:
these are just the references that are no longer lexical.
-/

namespace Loom.ScopeGraph

variable {g g' : ScopeGraph} {src dst : ScopeId} {new : List ScopeId}

/-! What references are written as. -/

/-- The references, but for where they are made and what they are bound to. -/
def markView (g : ScopeGraph) (r : ReferenceId) : Reference :=
  { g.referenceAt r with source := 0, resolved := none }

theorem markView_modifyReference {r : ReferenceId} {f : Reference → Reference}
    (hf : ∀ x, { f x with source := 0, resolved := none } = { x with source := 0, resolved :=
  none }) :
    (g.modifyReference r f).markView = g.markView :=
  funext fun q => field_modifyReference
    (fun x => { x with source := 0, resolved := none }) hf g r q

instance : IgnoresFlow markView := ⟨rfl⟩

instance : IgnoresBindings markView := ⟨rfl, markView_modifyReference fun _ => rfl⟩

instance : IgnoresPlaces markView := ⟨rfl, markView_modifyReference fun _ => rfl⟩

instance : IgnoresDecls markView := ⟨rfl, rfl⟩

instance : IgnoresTree markView := ⟨rfl⟩

/-- The names of the references, and which of them are made up. -/
def writtenView (g : ScopeGraph) (r : ReferenceId) : String × Bool :=
  ((g.referenceAt r).name, (g.referenceAt r).isVirtual)

theorem writtenView_of_mark (h : g'.markView = g.markView) : g'.writtenView = g.writtenView := by
  funext r
  change ((g'.markView r).name, (g'.markView r).isVirtual) =
    ((g.markView r).name, (g.markView r).isVirtual)
  rw [h]

/-! Dissolving. -/

/-- The list of the variables of a scope and its table of names agree. -/
theorem DeclarationLinks.find_vars {s : ScopeId} (h : g.DeclarationLinks) (hs : g.LiveScope s)
    (n : String) :
    ((g.scopeAt s).vars.find? fun v => (g.variableAt v).name == n) = g.declared? s n := by
  cases hfound : (g.scopeAt s).vars.find? fun v => (g.variableAt v).name == n with
  | none =>
    rw [List.find?_eq_none] at hfound
    symm
    rw [Option.eq_none_iff_forall_ne_some]
    intro v hv
    obtain ⟨hmem, hname⟩ := (h.declared_iff hs).mp hv
    exact hfound v hmem (beq_iff_eq.mpr hname)
  | some v =>
    have hname := List.find?_some hfound
    exact ((h.declared_iff hs).mpr ⟨List.mem_of_find?_eq_some hfound, beq_iff_eq.mp hname⟩).symm

/-- The variable that a variable becomes once `src` has become a part of `dst`. -/
def successor (g : ScopeGraph) (src dst : ScopeId) (v : VariableId) : VariableId :=
  if (g.variableAt v).scope = src then g.heir dst v else v

theorem successor_congr (h : g'.declView = g.declView) :
    g'.successor src dst = g.successor src dst := by
  funext v
  rw [successor, successor, heir, heir, scope_congr h, name_congr h, declared_congr h]

/-- The variables of `src` go to `dst` after a change of the tree and of where references are
made. -/
theorem WellFormed.inherit_vars {base : ScopeGraph} {settled : ReferenceId → Prop}
    {f : Scope → Scope} (h : g.WellFormed settled) (hscopes : base.LiveScope = g.LiveScope)
    (hrefs : base.LiveReference = g.LiveReference)
    (hdecl : base.declView = g.declView) (hbind : base.bindingView = g.bindingView)
    (hs : g.LiveScope src) (hd : g.LiveScope dst) (hne : dst ≠ src)
    (hf : ∀ x, (f x).removed = x.removed) :
    (∀ {t}, t ≠ src → ∀ n, (base.takeVariables src dst f).declared? t n =
      if t = dst then (g.declared? dst n).or (g.declared? src n) else g.declared? t n) ∧
    ∀ {r}, g.LiveReference r → ((base.takeVariables src dst f).referenceAt r).resolved =
      (g.referenceAt r).resolved.map (g.successor src dst) := by
  have hlinks := h.declarations.congr_live hscopes hdecl
  have hbound : base.BindingLinks := h.bindings.congr_live (liveVariable_congr hdecl) hrefs hbind
  rw [← hscopes] at hs hd
  rw [← hrefs, ← successor_congr hdecl]
  simp only [← declared_congr hdecl, ← resolved_congr hbind]
  have hother : ∀ {t}, t ≠ src → ∀ n, (base.modifyScope src f).declared? t n =
      base.declared? t n := by
    intro t ht n
    rw [declared?, scopeAt_modifyScope, if_neg fun he => ht he.1, ← declared?]
  have hheir : (base.modifyScope src f).heir dst = base.heir dst := by
    funext v
    rw [heir, hother hne]
    rfl
  have hadopted := (adopted_takeVariables hlinks hbound hs hd hne hf).2.2
  refine ⟨fun {t} ht n => ?_, fun {r} hr => ?_⟩
  · rw [hadopted.declared, hother hne, hother ht, ← hlinks.find_vars hs n]
    rfl
  · rw [hadopted.resolved hr, hheir]
    show (base.referenceAt r).resolved.map _ = _
    cases hres : (base.referenceAt r).resolved with
    | none => rfl
    | some v =>
      have hmem : v ∈ (base.scopeAt src).vars ↔ (base.variableAt v).scope = src := by
        rw [hlinks.mem_vars hs]
        exact and_iff_right (hbound.bound_live hr hres)
      simp only [Option.map_some, successor, hmem]

/-- What the lookup of names reads of a graph where `src` has become a part of `dst`. -/
structure Inherited (g g' : ScopeGraph) (src dst : ScopeId) : Prop where
  live : g'.LiveReference = g.LiveReference
  written : g'.writtenView = g.writtenView
  source : ∀ {r}, g.LiveReference r → (g'.referenceAt r).source =
    redirect src dst (g.referenceAt r).source
  declared : ∀ {t}, t ≠ src → ∀ n, g'.declared? t n =
    if t = dst then (g.declared? dst n).or (g.declared? src n) else g.declared? t n
  resolved : ∀ {r}, g.LiveReference r →
    (g'.referenceAt r).resolved = (g.referenceAt r).resolved.map (g.successor src dst)

theorem WellFormed.inherited_replaceScope {settled : ReferenceId → Prop} (h : g.WellFormed settled)
    (hs : g.LiveScope src) (hup : g.Up src dst) : Inherited g (g.replaceScope src new) src dst := by
  have hd : g.LiveScope dst := h.tree.upper_live hs hup
  have hne : dst ≠ src := fun he => h.tree.not_below_of_up hs hup (he ▸ .refl)
  have hover : HandedOver g (g.handUp src dst new) src dst := h.handedOver_handUp hs hup
  have hcontent : (g.replaceTree src (g.scopeAt dst).variableScope dst new).contentView =
      g.contentView :=
    view_replaceTree contentView
  have hmark : (g.handUp src dst new).markView = g.markView :=
    (view_takeVariables markView rfl).trans
      ((view_takeReferences markView).trans (view_replaceTree markView))
  obtain ⟨hdecl, hres⟩ := h.inherit_vars (f := ({ · with through := [], vars := [] }))
      ((liveScope_congr (view_takeReferences treeView)).trans (view_replaceTree LiveScope))
      (liveReference_takeReferences.trans (liveReference_congr (placeView_of_content hcontent)))
      ((view_takeReferences declView).trans (declView_of_content hcontent))
      ((view_takeReferences bindingView).trans (bindingView_of_content hcontent)) hs hd hne fun _ => rfl
  rw [← handUp] at hdecl hres
  rw [replaceScope_eq hup]
  generalize g.handUp src dst new = adopted at hover hmark hdecl hres
  refine ⟨hover.live, writtenView_of_mark hmark, hover.source, fun {t} ht n => ?_, hres⟩
  rw [declared?, Retired.scopeAt_retireScope ht]
  exact hdecl ht n

/-! Lookups afterwards. -/

/-- A reference passes through `dst`, and `src` declares its name. -/
def Captured (g : ScopeGraph) (src dst : ScopeId) (r : ReferenceId) : Prop :=
  r ∈ (g.scopeAt dst).through ∧ (g.declared? src (g.referenceAt r).name).isSome

instance (g : ScopeGraph) (src dst : ScopeId) (r : ReferenceId) :
    Decidable (g.Captured src dst r) :=
  inferInstanceAs (Decidable (_ ∧ _))

section Lookup

variable {r : ReferenceId}

/-- A graph in which all links agree, and the one where `src` has become a part of `dst`. -/
structure Dissolution (g g' : ScopeGraph) (src dst : ScopeId) : Prop where
  before : g.WellFormed fun _ => True
  after : g'.WellFormed fun _ => True
  source : g.LiveScope src
  up : g.Up src dst
  absorbed : Absorbed g g' src dst
  inherited : Inherited g g' src dst

theorem WellFormed.dissolution (h : g.WellFormed fun _ => True) (hs : g.LiveScope src)
    (hup : g.Up src dst) : Dissolution g (g.replaceScope src (g.scopeAt src).children) src dst where
  before := h
  after := h.replaceScope hs (.refl _)
  source := hs
  up := hup
  absorbed := (h.tree.replaceScope hs hup (.refl _)).2.1
  inherited := h.inherited_replaceScope hs hup

namespace Dissolution

variable (h : Dissolution g g' src dst)

include h

variable (hr : g.LiveReference r)

include hr

theorem meaning_eq :
    g'.meaning? r = g'.findVariable (redirect src dst (g.referenceAt r).source)
      (g.referenceAt r).name := by
  have hname : (g'.referenceAt r).name = (g.referenceAt r).name :=
    congrArg Prod.fst (congrFun h.inherited.written r)
  rw [meaning?, h.inherited.source hr, hname]

theorem source_live : g'.LiveScope (redirect src dst (g.referenceAt r).source) := by
  have hlive := h.before.places.source_live hr
  by_cases hsrc : (g.referenceAt r).source = src
  · rw [hsrc, redirect_self]
    exact h.absorbed.live_destination
  · rw [redirect_of_ne hsrc]
    exact h.absorbed.live_new hlive hsrc

/-- Between two scopes that stay there are the scopes that were there before, `src` apart. -/
theorem between {u o : ScopeId} (hu : g'.Below (redirect src dst (g.referenceAt r).source) u)
    (huo : g'.Below u o) : g.Below (g.referenceAt r).source u ∧ u ≠ src ∧ g.Below u o := by
  have hlive := h.before.places.source_live hr
  obtain ⟨hsu, hne⟩ := (h.absorbed.below_redirect h.up hlive).mp hu
  have hbelow := h.absorbed.below_redirect h.up (h.before.tree.live_of_below hlive hsu) (t := o)
  rw [redirect_of_ne hne] at hbelow
  exact ⟨hsu, hne, (hbelow.mp huo).1⟩

/-- A lexical reference stays so unless it is captured. -/
theorem lexical (hlex : g.Lexical r) (hfree : ¬ g.Captured src dst r) : g'.Lexical r := by
  have hlive := h.before.places.source_live hr
  have hne := h.absorbed.ne
  -- Where the reference passes through `dst`, the table of `dst` does not change for its name.
  have hsource : (∀ u, g.Below (g.referenceAt r).source u → g.Below u dst →
      g.declared? u (g.referenceAt r).name = none) → g.Below (g.referenceAt r).source dst →
      g.declared? src (g.referenceAt r).name = none := by
    intro hnone hdst
    have hthrough := (h.before.mem_through_iff hr hlex h.absorbed.destination).mpr ⟨hdst, hnone⟩
    rw [← Option.not_isSome_iff_eq_none]
    exact fun hsome => hfree ⟨hthrough, hsome⟩
  rw [Lexical, h.meaning_eq hr, h.inherited.resolved hr]
  rw [Lexical] at hlex
  cases hres : (g.referenceAt r).resolved with
  | none =>
    rw [hres] at hlex
    have hnone := (h.before.findVariable_eq_none_iff hlive).mp hlex.symm
    symm
    refine (h.after.findVariable_eq_none_iff (h.source_live hr)).mpr fun u hu => ?_
    obtain ⟨hsu, hus⟩ := (h.absorbed.below_redirect h.up hlive).mp hu
    rw [h.inherited.declared hus]
    split
    case isTrue hud =>
      subst hud
      rw [hnone u hsu, hsource (fun u hu _ => hnone u hu) hsu, Option.or_none]
    case isFalse => exact hnone u hsu
  | some v =>
    rw [hres] at hlex
    obtain ⟨o, hso, ho, hbefore⟩ := (h.before.findVariable_eq_some_iff hlive).mp hlex.symm
    obtain ⟨-, hscope, hname⟩ :=
      h.before.declarations.declared (h.before.tree.live_of_below hlive hso) ho
    symm
    refine (h.after.findVariable_eq_some_iff (h.source_live hr)).mpr ?_
    by_cases hos : o = src
    · -- The variable goes to `dst`, to the variable of its name if there is one.
      subst hos
      refine ⟨dst, (h.absorbed.below_redirect h.up hlive).mpr ⟨hso.tail h.up, hne⟩, ?_, fun u hu hud hudst => ?_⟩
      · rw [h.inherited.declared hne, if_pos rfl, ho, successor, if_pos hscope, heir, hname]
        cases g.declared? dst (g.referenceAt r).name <;> rfl
      · obtain ⟨hsu, hus, hud⟩ := h.between hr hu hud
        rw [h.inherited.declared hus, if_neg hudst]
        refine hbefore u hsu ?_ hus
        refine (below_total hsu hso).resolve_right fun hou => ?_
        have hdu := ((below_of_up h.up).mp hou).resolve_left hus
        exact hudst (h.before.tree.below_antisymm (h.before.tree.live_of_below hlive hsu) hud hdu)
    · refine ⟨o, (h.absorbed.below_redirect h.up hlive).mpr ⟨hso, hos⟩, ?_, fun u hu huo hne' => ?_⟩
      · rw [h.inherited.declared hos, successor, if_neg fun he => hos (hscope.symm.trans he)]
        split
        case isTrue hod => rw [← hod, ho, Option.some_or]
        case isFalse => exact ho
      · obtain ⟨hsu, hus, huo⟩ := h.between hr hu huo
        rw [h.inherited.declared hus]
        split
        case isTrue hud =>
          subst hud
          rw [hbefore u hsu huo hne']
          refine hsource (fun w hw hwu => hbefore w hw (hwu.trans huo) ?_) hsu
          rintro rfl
          exact hne' (h.before.tree.below_antisymm h.absorbed.destination huo hwu)
        case isFalse => exact hbefore u hsu huo hne'

/-- A captured reference keeps its binding, while its name means the variable that moved. -/
theorem captured {v : VariableId} (hlex : g.Lexical r) (hthrough : r ∈ (g.scopeAt dst).through)
    (hv : g.declared? src (g.referenceAt r).name = some v) :
    g'.meaning? r = some v ∧ (g'.referenceAt r).resolved = (g.referenceAt r).resolved ∧
      (g.referenceAt r).resolved ≠ some v := by
  have hlive := h.before.places.source_live hr
  have hne := h.absorbed.ne
  obtain ⟨hdst, hnone⟩ := (h.before.mem_through_iff hr hlex h.absorbed.destination).mp hthrough
  have hscope := (h.before.declarations.declared h.source hv).2.1
  -- The reference is not below `src`, so it is not bound there.
  have howner : ∀ w, (g.referenceAt r).resolved = some w → (g.variableAt w).scope ≠ src := by
    intro w hw heq
    rw [Lexical, hw] at hlex
    obtain ⟨o, hso, ho, -⟩ := (h.before.findVariable_eq_some_iff hlive).mp hlex.symm
    have hos :=
      (h.before.declarations.declared (h.before.tree.live_of_below hlive hso) ho).2.1.symm.trans heq
    subst hos
    have hfree := hnone o hso (.single h.up)
    rw [hv] at hfree
    cases hfree
  refine ⟨?_, ?_, fun hres => howner v hres hscope⟩
  · rw [h.meaning_eq hr]
    refine (h.after.findVariable_eq_some_iff (h.source_live hr)).mpr
      ⟨dst, (h.absorbed.below_redirect h.up hlive).mpr ⟨hdst, hne⟩, ?_, fun u hu hud hudst => ?_⟩
    · rw [h.inherited.declared hne, if_pos rfl, hnone dst hdst .refl, hv, Option.none_or]
    · obtain ⟨hsu, hus, hud⟩ := h.between hr hu hud
      rw [h.inherited.declared hus, if_neg hudst]
      exact hnone u hsu hud
  · rw [h.inherited.resolved hr]
    cases hres : (g.referenceAt r).resolved with
    | none => rfl
    | some w => rw [Option.map_some, successor, if_neg (howner w hres)]

end Dissolution

end Lookup

end Loom.ScopeGraph

namespace Loom

open ScopeGraph ScopeStep

/-- Where all references of the text are lexical, dissolving a scope leaves just those lexical that
are not captured by its variables. A captured reference stays bound as it was, or free, though its
name means the variable that moved. -/
theorem replaceScope_lexical_iff {g : ScopeGraph} {src dst : ScopeId}
    (h : g.WellFormed fun _ => True) (hs : g.LiveScope src) (hup : g.Up src dst)
    (hlex : ∀ r, g.LiveReference r → (g.referenceAt r).isVirtual = false → g.Lexical r)
    (r : ReferenceId) (hr : (g.replaceScope src (g.scopeAt src).children).LiveReference r)
    (hwritten : ((g.replaceScope src (g.scopeAt src).children).referenceAt r).isVirtual = false) :
    ((g.replaceScope src (g.scopeAt src).children).Lexical r ↔ ¬ g.Captured src dst r) ∧
      (g.Captured src dst r →
        (g.replaceScope src (g.scopeAt src).children).meaning? r = g.declared? src (g.referenceAt r).name ∧
        ((g.replaceScope src (g.scopeAt src).children).referenceAt r).resolved = (g.referenceAt r).resolved) := by
  have hdissolved := h.dissolution hs hup
  generalize g.replaceScope src (g.scopeAt src).children = g' at hr hwritten hdissolved ⊢
  rw [hdissolved.inherited.live] at hr
  have hsame : (g'.referenceAt r).isVirtual = (g.referenceAt r).isVirtual :=
    congrArg Prod.snd (congrFun hdissolved.inherited.written r)
  have hbefore := hlex r hr (hsame.symm.trans hwritten)
  have hcaptured : g.Captured src dst r → ∃ v, g.declared? src (g.referenceAt r).name = some v ∧
      g'.meaning? r = some v ∧ (g'.referenceAt r).resolved = (g.referenceAt r).resolved ∧
      (g.referenceAt r).resolved ≠ some v := by
    rintro ⟨hthrough, hsome⟩
    obtain ⟨v, hv⟩ := Option.isSome_iff_exists.mp hsome
    exact ⟨v, hv, hdissolved.captured hr hbefore hthrough hv⟩
  refine ⟨⟨fun hafter hcap => ?_, hdissolved.lexical hr hbefore⟩, fun hcap => ?_⟩
  · obtain ⟨v, -, hmeaning, hres, hne⟩ := hcaptured hcap
    exact hne (hres.symm.trans (hafter.trans hmeaning))
  · obtain ⟨v, hv, hmeaning, hres, -⟩ := hcaptured hcap
    exact ⟨hmeaning.trans hv.symm, hres⟩

/-- A block in a function declares `x` and `y`, the function declares `y` and the global scope `x`.
Both names are used in the block, and `x` in the function. -/
def shadowRun : List ScopeStep :=
  [.addScope .global 0 none, .addScope .function 1 (some 0), .addScope .block 2 (some 1),
    .declare 0 "x" 3 .variable,
    .declare 2 "x" 4 .variable, .declare 2 "y" 5 .variable, .declare 1 "y" 6 .variable,
    .addReference 2 7 "x" .read false, .addReference 2 8 "y" .read false,
    .addReference 1 9 "x" .read false, .resolve 0, .resolve 1, .resolve 2]

/-- The block dissolves: its variables are those of the function then, and the use of `x` there is
captured. -/
theorem replaceScope_lexical_iff_shadow :
    (run default shadowRun .empty).WellFormed (fun _ => True) ∧
      ((run default shadowRun .empty).replaceScope 2 []).Lexical 0 ∧
      ((run default shadowRun .empty).replaceScope 2 []).Lexical 1 ∧
      ¬ ((run default shadowRun .empty).replaceScope 2 []).Lexical 2 := by
  have hwell : (run default shadowRun .empty).WellFormed fun _ => True :=
    .of_run (by decide +kernel) (by decide +kernel)
  have hlex : ∀ r, (run default shadowRun .empty).LiveReference r →
      ((run default shadowRun .empty).referenceAt r).isVirtual = false →
      (run default shadowRun .empty).Lexical r := by
    have hall : ∀ r < (run default shadowRun .empty).references.size,
        (run default shadowRun .empty).Lexical r := by
      decide +kernel
    exact fun r hr _ => hall r hr.1
  have hs : (run default shadowRun .empty).LiveScope 2 := by decide +kernel
  have hup : ((run default shadowRun .empty).scopeAt 2).upper = some 1 := by decide +kernel
  have hiff := replaceScope_lexical_iff hwell hs hup hlex
  refine ⟨hwell, (hiff 0 ?_ ?_).1.mpr ?_, (hiff 1 ?_ ?_).1.mpr ?_,
    fun h => (hiff 2 ?_ ?_).1.mp h ?_⟩ <;>
    decide +kernel

/-- A block declares `x`, and `x` is used beside it. -/
def besideRun : List ScopeStep :=
  [.addScope .global 0 none, .addScope .block 1 (some 0), .declare 1 "x" 2 .variable,
    .addReference 0 3 "x" .read false, .resolve 0]

/-- When the block dissolves, its variable is seen by a reference that stays free and passes
through. -/
theorem besideRun_leaves_free :
    (run default besideRun .empty).WellFormed (fun _ => True) ∧
      (∀ r < (run default besideRun .empty).references.size, (run default besideRun .empty).Lexical r) ∧
      (run default besideRun .empty).LiveScope 1 ∧ ((run default besideRun .empty).scopeAt 1).upper = some 0 ∧
      ((run default besideRun .empty).replaceScope 1 []).LiveReference 0 ∧
      (((run default besideRun .empty).replaceScope 1 []).referenceAt 0).isVirtual = false ∧
      (((run default besideRun .empty).replaceScope 1 []).referenceAt 0).resolved = none ∧
      0 ∈ (((run default besideRun .empty).replaceScope 1 []).scopeAt 0).through ∧
      ((run default besideRun .empty).replaceScope 1 []).findVariable 0 "x" = some 0 := by
  refine ⟨.of_run (by decide +kernel) (by decide +kernel), ?_⟩
  decide +kernel

end Loom
