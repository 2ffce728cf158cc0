import Loom.Proofs.Scope.Absorb
import Loom.Proofs.Scope.Gather

/-!
Dissolving a scope: its children take its place, and its references and variables go to the scope
above it.

The stages change one kind of link each, the tree first, and each stage is described by the links
that it keeps.
-/

open List

namespace Loom.ScopeGraph

open IgnoresTree

variable {β : Type} {old t s src dst : ScopeId} {f : Scope → Scope} {g' g : ScopeGraph}
  {settled : ReferenceId → Prop}

/-! What the scopes have in them. -/

/-- All that the scopes list but their children, and what it leads to. -/
def contentView (g : ScopeGraph) := (g.declView, g.placeView, g.bindingView, g.throughView)

section ContentView

variable {g' : ScopeGraph}

theorem contentView_modifyScope
    (hf : ∀ x, (f x).vars = x.vars ∧ (f x).set = x.set ∧ (f x).references = x.references ∧
      (f x).through = x.through) :
    (g.modifyScope s f).contentView = g.contentView := by
  unfold contentView
  rw [declView_modifyScope fun x => ⟨(hf x).1, (hf x).2.1⟩,
    placeView_modifyScope fun x => (hf x).2.2.1, throughView_modifyScope fun x => (hf x).2.2.2]
  rfl

instance : IgnoresTree contentView := ⟨contentView_modifyScope fun _ => ⟨rfl, rfl, rfl, rfl⟩⟩

instance : IgnoresTree LiveScope := ⟨liveScope_modifyScope fun _ => rfl⟩

variable (h : g'.contentView = g.contentView)

include h

theorem declView_of_content : g'.declView = g.declView := congrArg (·.1) h

theorem placeView_of_content : g'.placeView = g.placeView := congrArg (·.2.1) h

theorem bindingView_of_content : g'.bindingView = g.bindingView := congrArg (·.2.2.1) h

theorem throughView_of_content : g'.throughView = g.throughView := congrArg (·.2.2.2) h

end ContentView

/-- Only the tree differs from a well-formed graph, and the same scopes are live. -/
theorem WellFormed.links_of_content (hg : g.WellFormed settled) (hlive : g'.LiveScope = g.LiveScope)
    (h : g'.contentView = g.contentView) : g'.DeclarationLinks ∧ g'.PlaceLinks ∧ g'.BindingLinks :=
  ⟨hg.declarations.congr_live hlive (declView_of_content h),
    hg.places.congr_live hlive (placeView_of_content h),
    hg.bindings.congr (declView_of_content h) (placeView_of_content h) (bindingView_of_content h)⟩

/-! The scope of `var` declarations is in no view. -/

section

variable (view : ScopeGraph → β)
  (hview : ∀ g s x, view (g.modifyScope s ({ · with variableScope := x })) = view g)

include hview

theorem view_moveVariableScopeWithin (old new : ScopeId) (fuel : Nat) (g : ScopeGraph)
    (s : ScopeId) : view (moveVariableScopeWithin old new fuel g s) = view g := by
  induction fuel generalizing g s with
  | zero => rfl
  | succ fuel ih =>
    unfold moveVariableScopeWithin
    split
    · rfl
    · exact (view_foldl view ih _ _).trans (hview g s new)

theorem view_moveVariableScope {new : ScopeId} : view (g.moveVariableScope s old new) = view g :=
  view_moveVariableScopeWithin view hview ..

end

theorem treeView_moveVariableScopeWithin (old new : ScopeId) (fuel : Nat) (g : ScopeGraph)
    (s : ScopeId) : (moveVariableScopeWithin old new fuel g s).treeView = g.treeView := by
  apply view_moveVariableScopeWithin treeView
  intro g s x
  exact treeView_modifyScope fun _ => ⟨rfl, rfl, rfl⟩

theorem treeView_moveVariableScope {new : ScopeId} :
    (g.moveVariableScope s old new).treeView = g.treeView :=
  treeView_moveVariableScopeWithin ..

/-! The children of a scope in another place. -/

theorem perm_spliceChildren (siblings : List ScopeId) (s : ScopeId) (new : List ScopeId) :
    (spliceChildren siblings s new).Perm (siblings.filter (· != s) ++ new) := by
  unfold spliceChildren
  dsimp only
  generalize siblings.filter (· != s) = kept
  generalize (min _ _ : Nat) = position
  have hswap : (kept.take position ++ new ++ kept.drop position).Perm
      (kept.take position ++ (kept.drop position ++ new)) := by
    rw [append_assoc]
    exact List.Perm.append_left _ perm_append_comm
  rwa [← append_assoc, take_append_drop] at hswap

/-- Scopes put under another one, which does not list them yet. -/
def liftChildren (g : ScopeGraph) (s replacement upper : ScopeId) (new : List ScopeId) :
    ScopeGraph :=
  new.foldl (fun g c =>
    (g.modifyScope c ({ · with upper := some upper })).moveVariableScope c s replacement) g

section LiftChildren

variable {s replacement upper : ScopeId} {new : List ScopeId}

theorem view_liftChildren (view : ScopeGraph → β) [IgnoresTree view] :
    view (g.liftChildren s replacement upper new) = view g :=
  view_foldl view (fun _ _ => (view_moveVariableScope view fun _ _ _ => links).trans links) new g

theorem children_liftChildren (t : ScopeId) :
    ((g.liftChildren s replacement upper new).scopeAt t).children = (g.scopeAt t).children := by
  apply view_foldl fun g => (g.scopeAt t).children
  intro g c
  exact (children_congr treeView_moveVariableScope t).trans
    (field_modifyScope (·.children) (fun _ => by rfl) ..)

theorem upper_liftChildren (hnew : ∀ c ∈ new, c < g.scopes.size) (t : ScopeId) :
    ((g.liftChildren s replacement upper new).scopeAt t).upper =
      if t ∈ new then some upper else (g.scopeAt t).upper := by
  induction new generalizing g with
  | nil => simp [liftChildren]
  | cons c new ih =>
    let lifted :=
      (g.modifyScope c ({ · with upper := some upper })).moveVariableScope c s replacement
    have hstep : (lifted.scopeAt t).upper = if t = c then some upper else (g.scopeAt t).upper := by
      rw [upper_congr treeView_moveVariableScope, scopeAt_modifyScope]
      by_cases ht : t = c <;> simp [ht, hnew c (by simp)]
    have hnew' : ∀ d ∈ new, d < lifted.scopes.size := by
      intro d hd
      rw [size_congr treeView_moveVariableScope, size_modifyScope]
      exact hnew d (mem_cons_of_mem _ hd)
    rw [liftChildren, foldl_cons, ← liftChildren, ih hnew', hstep]
    by_cases ht : t = c <;> by_cases hmem : t ∈ new <;> simp [ht, hmem]

end LiftChildren

/-! References and variables handed over. -/

/-- In `g'` the references and variables of `src` belong to `dst`. -/
structure HandedOver (g g' : ScopeGraph) (src dst : ScopeId) : Prop where
  declarations : g'.Adopting src []
  places : g'.PlaceLinks
  bindings : g'.BindingLinks
  emptied : (g'.scopeAt src).references = []
  live : g'.LiveReference = g.LiveReference
  source : ∀ {r}, g.LiveReference r → (g'.referenceAt r).source =
    redirect src dst (g.referenceAt r).source
  owner : ∀ {r}, g.LiveReference r → g'.owner? r = (g.owner? r).map (redirect src dst)
  through : ∀ {t}, t ≠ src → (g'.scopeAt t).through = (g.scopeAt t).through

/-- Other links upward make no difference. -/
theorem HandedOver.of_content {g1 : ScopeGraph} (h : HandedOver g1 g' src dst)
    (hc : g1.contentView = g.contentView) : HandedOver g g' src dst := by
  have hlive := liveReference_congr (placeView_of_content hc)
  refine ⟨h.declarations, h.places, h.bindings, h.emptied, h.live.trans hlive, ?_, ?_, ?_⟩
  · intro r hr
    rw [h.source (hlive ▸ hr), source_congr (placeView_of_content hc)]
  · intro r hr
    rw [h.owner (hlive ▸ hr), owner_congr (declView_of_content hc)
      (resolved_congr (bindingView_of_content hc) r)]
  · intro t ht
    rw [h.through ht, through_congr (throughView_of_content hc)]

/-- What happens to the lists of `src` afterwards does not matter, but its list of references stays
empty. -/
theorem HandedOver.modifySource (h : HandedOver g g' src dst) (hf : ∀ x, (f x).removed = x.removed)
    (hf' : ∀ x, (f x).references = x.references) : HandedOver g (g'.modifyScope src f) src dst := by
  have hlive : (g'.modifyScope src f).LiveScope = g'.LiveScope := liveScope_modifyScope hf
  refine ⟨h.declarations.modifySource hf, h.places.congr_live hlive (placeView_modifyScope hf'),
    BindingLinks.congr_live (g := g') rfl rfl rfl h.bindings, ?_, h.live, h.source, h.owner, ?_⟩
  · rw [references_congr (placeView_modifyScope hf'), h.emptied]
  · intro t ht
    rw [scopeAt_modifyScope, if_neg fun he => ht he.1, h.through ht]

theorem HandedOver.referencesFirst
    (hf : ∀ x, (f x).upper = x.upper ∧ (f x).children = x.children ∧ (f x).removed = x.removed)
    (hf' : ∀ x, (f x).references = x.references) (hdecl : g.DeclarationLinks)
    (hplace : g.PlaceLinks)
    (hbind : g.BindingLinks) (hs : g.LiveScope src) (hd : g.LiveScope dst) (hne : dst ≠ src) :
    HandedOver g ((g.takeReferences src dst).takeVariables src dst f) src dst := by
  have hlive : (g.takeReferences src dst).LiveScope = g.LiveScope :=
    liveScope_congr (view_takeReferences treeView)
  obtain ⟨hadopting, hbindings, -⟩ :=
    adopted_takeVariables hdecl.takeReferences hbind.takeReferences (hlive ▸ hs)
    (hlive ▸ hd) hne fun x => (hf x).2.2
  have hplace' : ((g.takeReferences src dst).takeVariables src dst f).placeView =
      (g.takeReferences src dst).placeView :=
    view_takeVariables placeView (placeView_modifyScope hf')
  refine ⟨hadopting, (hplace.takeReferences hs hd hne).congr
      (view_takeVariables treeView (treeView_modifyScope hf)) hplace', hbindings,
    ?_, (liveReference_congr hplace').trans liveReference_takeReferences, ?_, ?_, ?_⟩
  · rw [references_congr hplace', references_takeReferences hs hd hne, if_neg (Ne.symm hne),
      if_pos rfl]
  · intro r hr
    rw [source_congr hplace', source_takeReferences hplace hs hr]
  · intro r hr
    have hr' : (g.takeReferences src dst).LiveReference r := by
      rw [liveReference_takeReferences]
      exact hr
    rw [owner_takeVariables hdecl.takeReferences hbind.takeReferences (hlive ▸ hs) (hlive ▸ hd) hne
      (fun x => (hf x).2.2) hr', owner_takeReferences]
  · intro t ht
    rw [through_congr throughView_takeVariables, scopeAt_modifyScope,
      if_neg fun he => ht he.1, through_congr (view_takeReferences throughView)]

theorem HandedOver.variablesFirst (f f' : Scope → Scope)
    (hf : ∀ x, (f x).upper = x.upper ∧ (f x).children = x.children ∧ (f x).removed = x.removed)
    (hfr : ∀ x, (f x).references = x.references)
    (hf' : ∀ x, (f' x).upper = x.upper ∧ (f' x).children = x.children ∧ (f' x).removed = x.removed)
    (hfr' : ∀ x, (f' x).references = x.references) (hdecl : g.DeclarationLinks)
    (hplace : g.PlaceLinks)
    (hbind : g.BindingLinks) (hs : g.LiveScope src) (hd : g.LiveScope dst) (hne : dst ≠ src) :
    HandedOver g (((g.takeVariables src dst f).modifyScope src f').takeReferences src dst) src
      dst := by
  obtain ⟨hadopting, hbindings, -⟩ :=
    adopted_takeVariables hdecl hbind hs hd hne fun x => (hf x).2.2
  generalize hadopted : (g.takeVariables src dst f).modifyScope src f' = adopted
  have htree : adopted.treeView = g.treeView :=
    hadopted ▸ (treeView_modifyScope hf').trans
      (view_takeVariables treeView (treeView_modifyScope hf))
  have hplace' : adopted.placeView = g.placeView :=
    hadopted ▸ (placeView_modifyScope hfr').trans
      (view_takeVariables placeView (placeView_modifyScope hfr))
  have hadopting' := hadopted ▸ hadopting.modifySource fun x => (hf' x).2.2
  have hbindings' : adopted.BindingLinks :=
    hadopted ▸ BindingLinks.congr_live (g := g.takeVariables src dst f) rfl rfl rfl hbindings
  have howner' : ∀ {r}, g.LiveReference r → adopted.owner? r =
      (g.owner? r).map (redirect src dst) :=
    hadopted ▸ owner_takeVariables hdecl hbind hs hd hne fun x => (hf x).2.2
  have hthrough : ∀ {t}, t ≠ src → (adopted.scopeAt t).through = (g.scopeAt t).through := by
    intro t ht
    rw [← hadopted, scopeAt_modifyScope, if_neg fun he => ht he.1,
      through_congr throughView_takeVariables, scopeAt_modifyScope, if_neg fun he => ht he.1]
  have hs' : adopted.LiveScope src := liveScope_congr htree ▸ hs
  have hd' : adopted.LiveScope dst := liveScope_congr htree ▸ hd
  have hplaces := hplace.congr htree hplace'
  have hlive := liveReference_congr hplace'
  refine ⟨hadopting'.congr_live (liveScope_congr (view_takeReferences treeView))
      (view_takeReferences declView), hplaces.takeReferences hs' hd' hne,
    hbindings'.takeReferences, ?_, liveReference_takeReferences.trans hlive, ?_, ?_, ?_⟩
  · rw [references_takeReferences hs' hd' hne, if_neg (Ne.symm hne), if_pos rfl]
  · intro r hr
    rw [source_takeReferences hplaces hs' (hlive ▸ hr), source_congr hplace']
  · intro r hr
    rw [owner_takeReferences, howner' hr]
  · intro t ht
    rw [through_congr (view_takeReferences throughView), hthrough ht]

/-! Replacing a scope by its children. -/

section Replace

variable {replacement : ScopeId} {new : List ScopeId}

/-- The children of `src` listed in its place and put under the scope above it. -/
def replaceTree (g : ScopeGraph) (src replacement dst : ScopeId) (new : List ScopeId) :
    ScopeGraph :=
  ((g.modifyScope dst fun sc => { sc with children := spliceChildren sc.children src new
    }).liftChildren src replacement dst new).modifyScope src fun sc =>
      { sc with children := sc.children.filter fun c => !new.contains c }

theorem view_replaceTree (view : ScopeGraph → β) [IgnoresTree view] :
    view (g.replaceTree src replacement dst new) = view g :=
  links.trans ((view_liftChildren view).trans links)

theorem upper_replaceTree (hnew : ∀ c ∈ new, c < g.scopes.size) (t : ScopeId) :
    ((g.replaceTree src replacement dst new).scopeAt t).upper = if t ∈ new then some dst
      else (g.scopeAt t).upper := by
  unfold replaceTree
  rw [field_modifyScope (·.upper) fun _ => by rfl, upper_liftChildren (by simpa),
    field_modifyScope (·.upper) fun _ => by rfl]

theorem children_replaceTree (hd : dst < g.scopes.size) (ht : t ≠ src) :
    ((g.replaceTree src replacement dst new).scopeAt t).children =
      if t = dst then spliceChildren (g.scopeAt dst).children src new
      else (g.scopeAt t).children := by
  unfold replaceTree
  rw [scopeAt_modifyScope, if_neg fun he => ht he.1, children_liftChildren, scopeAt_modifyScope]
  by_cases htd : t = dst <;> simp [htd, hd]

/-- The children, the references and the variables of `src` handed to the scope above it. -/
def handUp (g : ScopeGraph) (src dst : ScopeId) (new : List ScopeId) : ScopeGraph :=
  ((g.replaceTree src (g.scopeAt dst).variableScope dst new).takeReferences src dst).takeVariables
    src dst ({ · with through := [], vars := [] })

theorem replaceScope_eq (hup : g.Up src dst) : g.replaceScope src new =
    ((g.handUp src dst new).modifyScope src ({ · with set := [], upper := none })).retireScope
      src := by
  rw [Up] at hup
  unfold replaceScope
  simp only [hup]
  rfl

/-- A scope with none above it stays. -/
theorem replaceScope_root (hup : (g.scopeAt src).upper = none) : g.replaceScope src new = g := by
  unfold replaceScope
  simp only [hup]

theorem view_handUp (view : ScopeGraph → β) [IgnoresContents view] :
    view (g.handUp src dst new) =
      view (g.replaceTree src (g.scopeAt dst).variableScope dst new) := by
  refine (view_takeVariables view ?_).trans (view_takeReferences view)
  refine (congrArg view
    (modifyScope_modifyScope (f := ({ · with vars := [] })) ({ · with through := [] })).symm).trans
      ?_
  exact IgnoresFlow.through.trans IgnoresDecls.declared

section

variable (h : g.TreeLinks) (hs : g.LiveScope src)

include h hs

/-- Putting the children of a scope under another one is the same for all links upward. -/
theorem TreeLinks.upper_redirect (ht : g.LiveScope t) :
    (if t ∈ (g.scopeAt src).children then some dst else (g.scopeAt t).upper) =
      (g.scopeAt t).upper.map (redirect src dst) := by
  have hmem : t ∈ (g.scopeAt src).children ↔ g.Up t src := by
    rw [h.mem_children hs]
    exact and_iff_right ht
  simp only [hmem, Up]
  cases (g.scopeAt t).upper with
  | none => simp
  | some u => by_cases hu : u = src <;> simp [hu, redirect]

theorem TreeLinks.upper_replaceTree (hnew : new.Perm (g.scopeAt src).children)
    (ht : g.LiveScope t) :
    ((g.replaceTree src replacement dst new).scopeAt t).upper =
      (g.scopeAt t).upper.map (redirect src dst) := by
  rw [ScopeGraph.upper_replaceTree fun c hc => ((h.mem_children hs).mp (hnew.mem_iff.mp hc)).1.1,
    ← h.upper_redirect hs ht]
  simp only [hnew.mem_iff]

theorem nodup_spliceChildren (hup : g.Up src dst) (hnew : new.Perm (g.scopeAt src).children) :
    (spliceChildren (g.scopeAt dst).children src new).Nodup := by
  have hd := h.upper_live hs hup
  rw [(perm_spliceChildren ..).nodup_iff]
  refine nodup_append.mpr ⟨(h.children_nodup hd).filter _, hnew.nodup_iff.mpr (h.children_nodup hs),
    ?_⟩
  rintro c hc d hd' rfl
  have hcd := ((h.mem_children hd).mp (mem_of_mem_filter hc)).2
  have hcs := ((h.mem_children hs).mp (hnew.mem_iff.mp hd')).2
  cases upper_unique g hcd hcs
  exact h.not_below_of_up hs hup .refl

theorem mem_spliceChildren (hup : g.Up src dst) (hnew : new.Perm (g.scopeAt src).children)
    {c : ScopeId} :
    c ∈ spliceChildren (g.scopeAt dst).children src new ↔ (g.LiveScope c ∧ c ≠ src) ∧
      (g.Up c src ∨ g.Up c dst) := by
  have hd := h.upper_live hs hup
  rw [(perm_spliceChildren ..).mem_iff, mem_append, mem_filter, h.mem_children hd,
    hnew.mem_iff, h.mem_children hs, bne_iff_ne]
  have hself : g.LiveScope c → g.Up c src → c ≠ src := by
    rintro hc hcs rfl
    exact h.not_below_of_up hc hcs .refl
  tauto

end

/-- The children of `src` listed in its place and put under the scope above it, `src` itself
gone. -/
theorem Absorbed.treeLinks_of_splice {final : ScopeGraph} (ha : Absorbed g final src dst)
    (hup : g.Up src dst) (hnew : new.Perm (g.scopeAt src).children)
    (hlive : ∀ {t}, final.LiveScope t ↔ g.LiveScope t ∧ t ≠ src)
    (hkids : ∀ {t}, t ≠ src → (final.scopeAt t).children =
      if t = dst then spliceChildren (g.scopeAt dst).children src new
      else (g.scopeAt t).children) : final.TreeLinks := by
  refine ha.treeLinks ?_ ?_
  · intro t ht
    rw [hkids (hlive.mp ht).2]
    split
    · exact nodup_spliceChildren ha.tree ha.source hup hnew
    · exact ha.tree.children_nodup (hlive.mp ht).1
  · intro t c ht
    obtain ⟨ht, hts⟩ := hlive.mp ht
    rw [hkids hts, hlive]
    by_cases htd : t = dst
    · subst htd
      rw [if_pos rfl, mem_spliceChildren ha.tree ha.source hup hnew]
      simp [hts]
    · have hother : g.Up c t → c ≠ src := by
        rintro hct rfl
        exact htd (upper_unique g hct hup)
      rw [if_neg htd, ha.tree.mem_children ht]
      simp only [htd, false_and, false_or]
      exact ⟨fun hc => ⟨⟨hc.1, hother hc.2⟩, hts, hc.2⟩, fun hc => ⟨hc.1.1, hc.2.2⟩⟩

/-- A scope that has made way for its children, and the tree that is left. -/
theorem TreeLinks.replaceScope (h : g.TreeLinks) (hs : g.LiveScope src) (hup : g.Up src dst)
    (hnew : new.Perm (g.scopeAt src).children) :
    (g.replaceScope src new).TreeLinks ∧ Absorbed g (g.replaceScope src new) src dst ∧
      ∀ {t}, (g.replaceScope src new).LiveScope t ↔ g.LiveScope t ∧ t ≠ src := by
  have hd := h.upper_live hs hup
  have htree : (g.handUp src dst new).treeView = _ := view_handUp treeView
  rw [replaceScope_eq hup]
  generalize g.handUp src dst new = moved at htree ⊢
  have hlive : moved.LiveScope = g.LiveScope :=
    (liveScope_congr htree).trans (view_replaceTree LiveScope)
  have hret : ∀ {t},
      ((moved.modifyScope src ({ · with set := [], upper := none })).retireScope src).LiveScope t ↔
      g.LiveScope t ∧ t ≠ src := by
    intro t
    rw [(Retired.of_retireScope (hlive ▸ hs).1).live, hlive]
  have habs :
      Absorbed g ((moved.modifyScope src ({ · with set := [], upper := none })).retireScope src) src dst := by
    refine ⟨h, hs, hd, h.not_below_of_up hs hup, fun ht => (hret.mp ht).1,
      fun ht hts => hret.mpr ⟨ht, hts⟩, fun {t} ht => ?_⟩
    obtain ⟨htlive, hts⟩ := hret.mp ht
    rw [Retired.scopeAt_retireScope hts, upper_congr htree, h.upper_replaceTree hs hnew htlive]
  refine ⟨habs.treeLinks_of_splice hup hnew hret fun {t} hts => ?_, habs, hret⟩
  rw [Retired.scopeAt_retireScope hts, children_congr htree, children_replaceTree hd.1 hts]

theorem WellFormed.handedOver_handUp (h : g.WellFormed settled) (hs : g.LiveScope src)
    (hup : g.Up src dst) : HandedOver g (g.handUp src dst new) src dst := by
  have hd : g.LiveScope dst := h.tree.upper_live hs hup
  have hne : dst ≠ src := fun he => h.tree.not_below_of_up hs hup (he ▸ .refl)
  unfold handUp
  generalize hlifted : g.replaceTree src (g.scopeAt dst).variableScope dst new = lifted
  have hcontent : lifted.contentView = g.contentView := hlifted ▸ (view_replaceTree contentView)
  have hlive : lifted.LiveScope = g.LiveScope := hlifted ▸ (view_replaceTree LiveScope)
  obtain ⟨hdecl, hplace, hbind⟩ := h.links_of_content hlive hcontent
  refine .of_content ?_ hcontent
  exact .referencesFirst (fun _ => ⟨rfl, rfl, rfl⟩) (fun _ => rfl) hdecl hplace hbind (hlive ▸ hs)
    (hlive ▸ hd) hne

/-- A scope may be replaced by its own children, in any order. -/
theorem WellFormed.replaceScope (h : g.WellFormed settled) (hs : g.LiveScope src)
    (hnew : new.Perm (g.scopeAt src).children) : (g.replaceScope src new).WellFormed settled := by
  cases hup : (g.scopeAt src).upper with
  | none =>
    rw [replaceScope_root hup]
    exact h
  | some dst =>
    obtain ⟨htree, habs, hfinal⟩ := h.tree.replaceScope hs hup hnew
    have hover : HandedOver g (g.handUp src dst new) src dst := h.handedOver_handUp hs hup
    have hadopted : (g.handUp src dst new).LiveScope = g.LiveScope :=
      (liveScope_congr (view_handUp treeView)).trans (view_replaceTree LiveScope)
    rw [replaceScope_eq hup] at htree habs hfinal ⊢
    generalize g.handUp src dst new = adopted at htree habs hfinal hover hadopted ⊢
    have hs' : adopted.LiveScope src := hadopted ▸ hs
    have hret := Retired.of_retireScope (f := ({ · with set := [], upper := none })) hs'.1
    generalize (adopted.modifyScope src ({ · with set := [], upper := none })).retireScope src =
      final at *
    have hrefs : ∀ {r}, final.LiveReference r ↔ g.LiveReference r := by
      intro r
      rw [hret.liveReference_iff, hover.live]
    have hthrough : ∀ {t}, t ≠ src → (final.scopeAt t).through = (g.scopeAt t).through := fun ht =>
      (hret.kept _ ht).2.2.2.trans (hover.through ht)
    refine ⟨htree, hret.declarations hover.declarations, hret.places hover.places hs' hover.emptied,
      hret.bindings hover.bindings, ⟨?_, ?_⟩, ?_⟩
    · intro t r ht
      rw [hthrough (hfinal.mp ht).2, hrefs]
      exact h.through.live (hfinal.mp ht).1
    · intro t ht
      rw [hthrough (hfinal.mp ht).2]
      exact h.through.nodup (hfinal.mp ht).1
    · intro r hr hnot
      have hr := hrefs.mp hr
      refine habs.flow_above (h.places.source_live hr) ?_ ?_ hup
        (fun hsrc => (hfinal.mp hsrc).2 rfl) ?_ (h.flow hr hnot)
      · rw [hret.referenceAt_eq, hover.source hr]
      · rw [hret.owner_eq, hover.owner hr]
      · intro t ht
        rw [hthrough (hfinal.mp ht).2]

end Replace

end Loom.ScopeGraph
