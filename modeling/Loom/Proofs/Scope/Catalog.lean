import Loom.Proofs.Scope.Block
import Mathlib.Tactic.IntervalCases

/-!
The two indexes of a graph: the scopes by their nodes, and the references by their identifiers.

New scopes and references, scopes that go and scopes that go to another node change an index. All
other edits leave both alone, for any arguments. So after every run the indexes answer what a search
of the whole graph would.
-/

open List

namespace Loom

namespace NodeIndex

variable {x : NodeIndex} {n : NodeId}

/-- No node is kept with nothing under it. -/
def Tight (x : NodeIndex) : Prop := ∀ e ∈ x, e.2 ≠ []

theorem Tight.push (h : x.Tight) (n : NodeId) (i : Nat) : (x.push n i).Tight := by
  induction x with
  | nil => simp [Tight, NodeIndex.push]
  | cons e x ih =>
    obtain ⟨he, hx⟩ := forall_mem_cons.mp h
    unfold NodeIndex.push
    split
    · exact forall_mem_cons.mpr ⟨by simp, hx⟩
    · exact forall_mem_cons.mpr ⟨he, ih hx⟩

theorem Tight.remove (h : x.Tight) (n : NodeId) (i : Nat) : (x.remove n i).Tight := by
  induction x with
  | nil => exact h
  | cons e x ih =>
    obtain ⟨he, hx⟩ := forall_mem_cons.mp h
    unfold NodeIndex.remove
    split
    · dsimp only
      split
      · exact hx
      · rename_i hkept
        exact forall_mem_cons.mpr ⟨fun hnil => hkept (isEmpty_iff.mpr hnil), hx⟩
    · exact forall_mem_cons.mpr ⟨he, ih hx⟩

theorem Tight.lookup_eq_none (h : x.Tight) : x.lookup n = none ↔ x.get n = [] := by
  unfold get
  cases hlookup : x.lookup n with
  | none => simp
  | some is =>
    obtain ⟨l, l', heq, -⟩ := lookup_eq_some_iff.mp hlookup
    have hsome : is ≠ [] := h (n, is) (by simp [heq])
    simpa using hsome

end NodeIndex

namespace ScopeGraph

variable {g g' : ScopeGraph} {s : ScopeId}

/-- The indexes with all that they are about. -/
def catalog (g : ScopeGraph) :
    (NodeIndex × (ScopeId → NodeId)) × (ScopeId → Prop) × (NodeIndex × (ReferenceId → NodeId)) ×
      Nat :=
  (g.nodeView, g.LiveScope, g.mentionView, g.references.size)

theorem catalog_congr (hn : g'.nodeView = g.nodeView) (hl : g'.LiveScope = g.LiveScope)
    (hm : g'.mentionView = g.mentionView) (hsize : g'.references.size = g.references.size) :
    g'.catalog = g.catalog := by
  rw [catalog, catalog, hn, hl, hm, hsize]

theorem catalog_modifyScope {f : Scope → Scope}
    (hf : ∀ x, (f x).block = x.block ∧ (f x).removed = x.removed) :
    (g.modifyScope s f).catalog = g.catalog :=
  catalog_congr (nodeView_modifyScope fun x => (hf x).1) (liveScope_modifyScope fun x => (hf x).2)
    rfl rfl

theorem catalog_modifyReference {r : ReferenceId} {f : Reference → Reference}
    (hf : ∀ x, (f x).identifier = x.identifier) : (g.modifyReference r f).catalog = g.catalog :=
  catalog_congr rfl rfl (mentionView_modifyReference hf) (size_modifyReference ..)

instance : IgnoresContents catalog where
  through := catalog_modifyScope fun _ => ⟨rfl, rfl⟩
  resolved := catalog_modifyReference fun _ => rfl
  made := catalog_modifyScope fun _ => ⟨rfl, rfl⟩
  source := catalog_modifyReference fun _ => rfl
  gone := catalog_modifyReference fun _ => rfl
  declared := catalog_modifyScope fun _ => ⟨rfl, rfl⟩

instance : IgnoresTree catalog := ⟨catalog_modifyScope fun _ => ⟨rfl, rfl⟩⟩

/-- The index of the scopes has just the live ones, and that of the references has all of them in
the order of their creation. -/
structure Catalogued (g : ScopeGraph) : Prop where
  scopes : g.Indexed
  tight : g.nodeScopes.Tight
  references : ∀ i, g.identifierReferences.get i =
    (List.range g.references.size).filter fun r => (g.referenceAt r).identifier == i

namespace Catalogued

section

variable (h : g.Catalogued)

include h

theorem congr (heq : g'.catalog = g.catalog) : g'.Catalogued := by
  obtain ⟨hn, hl, hm, hsize⟩ : g'.nodeView = g.nodeView ∧ g'.LiveScope = g.LiveScope ∧
      g'.mentionView = g.mentionView ∧ g'.references.size = g.references.size := by
    simpa only [catalog, Prod.mk.injEq] using heq
  have hscopes : g'.nodeScopes = g.nodeScopes := congrArg Prod.fst hn
  have hindex : g'.identifierReferences = g.identifierReferences := congrArg Prod.fst hm
  have hident : ∀ r, (g'.referenceAt r).identifier = (g.referenceAt r).identifier :=
    congrFun (congrArg Prod.snd hm)
  refine ⟨h.scopes.congr hl hn, hscopes ▸ h.tight, fun i => ?_⟩
  rw [hindex, hsize, h.references]
  simp only [hident]

theorem addScope (kind : ScopeKind) (block : NodeId) (upper : Option ScopeId) :
    (g.addScope kind block upper).2.Catalogued := by
  let pushed : ScopeGraph :=
    { g with
      scopes := g.scopes.push ⟨kind, block, upper, [], g.newVariableScope kind upper, [], [], [], [], false⟩
      nodeScopes := g.nodeScopes.push block g.scopes.size }
  have heq : (g.addScope kind block upper).2.catalog = pushed.catalog := by
    cases upper with
    | none => rfl
    | some u => exact catalog_modifyScope (g := pushed) fun _ => ⟨rfl, rfl⟩
  have hbelongs : ∀ s n, pushed.Belongs s n ↔ g.Belongs s n ∨ n = block ∧ s = g.scopes.size := by
    intro s n
    have hget : pushed.scopeAt s = if s = g.scopes.size then
        ⟨kind, block, upper, [], g.newVariableScope kind upper, [], [], [], [], false⟩
          else g.scopeAt s := getD_push ..
    have hsize : pushed.scopes.size = g.scopes.size + 1 := Array.size_push ..
    rw [Belongs, Belongs, LiveScope, LiveScope, hget, hsize]
    by_cases hs : s = g.scopes.size
    · rw [if_pos hs]
      simp only [hs, Nat.lt_succ_self, lt_irrefl, true_and, false_and, false_or, and_true]
      exact eq_comm
    · rw [Nat.lt_succ_iff_lt_or_eq]
      simp [hs]
  refine congr (g := pushed) ⟨⟨h.scopes.keyed.push .., fun n => ?_, fun n s => ?_⟩,
    h.tight.push _ _, h.references⟩ heq
  · refine NodeIndex.nodup_get_push (h.scopes.nodup n) fun hmem => ?_
    exact lt_irrefl _ ((h.scopes.mem _ _).mp hmem).1.1
  · rw [hbelongs, ← h.scopes.mem]
    exact NodeIndex.mem_get_push

theorem registerNode (n : NodeId) (hs : g.LiveScope s) : (g.registerNode n s).Catalogued :=
  ⟨h.scopes.registerNode hs, (h.tight.remove _ _).push _ _, h.references⟩

theorem retireScope (s : ScopeId) : (g.retireScope s).Catalogued := by
  have hget : ∀ t, (g.retireScope s).scopeAt t =
      if t = s ∧ s < g.scopes.size then { g.scopeAt s with removed := true } else g.scopeAt t :=
    fun t => scopeAt_modifyScope ..
  have hsize : (g.retireScope s).scopes.size = g.scopes.size := size_modifyScope
  refine ⟨h.scopes.drop (fun t => ?_) (fun t ht => ?_) rfl, h.tight.remove _ _, h.references⟩
  · rw [LiveScope, LiveScope, hsize, hget]
    by_cases ht : t = s
    · subst ht
      by_cases hlt : t < g.scopes.size <;> simp [hlt]
    · simp [ht]
  · rw [hget, if_neg fun hts => ht hts.1]

theorem detachScope (s : ScopeId) : (g.detachScope s).Catalogued := by
  unfold ScopeGraph.detachScope
  split
  · refine (h.congr ?_).retireScope s
    exact catalog_modifyScope fun _ => ⟨rfl, rfl⟩
  · exact h.retireScope s

end

theorem removeScopeWithin (fuel : Nat) (h : g.Catalogued) (s : ScopeId) :
    (removeScopeWithin fuel g s).Catalogued := by
  induction fuel generalizing g s with
  | zero => exact h
  | succ fuel ih =>
    have hbelow : ((g.scopeAt s).children.foldl (ScopeGraph.removeScopeWithin fuel) g).Catalogued :=
      List.foldlRecOn _ _ h fun _ hg c _ => ih hg c
    obtain ⟨bare, hbare, heq⟩ := removeLeaf_eq catalog ((g.scopeAt s).children.foldl _ g) s
    have hstep := (hbelow.congr hbare).detachScope s
    rw [← heq] at hstep
    exact hstep

section

variable (h : g.Catalogued)

include h

theorem replaceScope (s : ScopeId) (new : List ScopeId) : (g.replaceScope s new).Catalogued := by
  cases hup : (g.scopeAt s).upper with
  | none =>
    rw [replaceScope_root hup]
    exact h
  | some dst =>
    rw [replaceScope_eq hup]
    have hmoved : (g.handUp s dst new).catalog = g.catalog :=
      (view_handUp catalog).trans (view_replaceTree catalog)
    refine ((h.congr hmoved).congr ?_).retireScope s
    exact catalog_modifyScope fun _ => ⟨rfl, rfl⟩

theorem mergeScope (src dst : ScopeId) : (g.mergeScope src dst).Catalogued := by
  obtain ⟨moved, hmoved, heq⟩ := mergeScope_eq_moved catalog g src dst
  rw [heq]
  exact (h.congr (hmoved.trans (view_mergeTree catalog))).detachScope src

theorem pushReference (x : Reference) : (g.pushReference x).2.Catalogued := by
  let pushed : ScopeGraph :=
    { g with
      references := g.references.push x
      identifierReferences := g.identifierReferences.push x.identifier g.references.size }
  refine congr (g := pushed) ⟨h.scopes.congr rfl rfl, h.tight, fun i => ?_⟩
    (catalog_modifyScope fun _ => ⟨rfl, rfl⟩)
  have hget : ∀ r, pushed.referenceAt r = if r = g.references.size then x else g.referenceAt r :=
    fun r => getD_push ..
  have hsize : pushed.references.size = g.references.size + 1 := Array.size_push ..
  have hindex : pushed.identifierReferences.get i = _ := NodeIndex.get_push ..
  have hold : (List.range g.references.size).filter
      (fun r => (pushed.referenceAt r).identifier == i) = g.identifierReferences.get i := by
    rw [h.references]
    refine filter_congr fun r hr => ?_
    rw [hget, if_neg (mem_range.mp hr).ne]
  rw [hindex, hsize, range_succ, filter_append, hold]
  by_cases hi : i = x.identifier
  · simp [hi, hget]
  · simp [hi, hget, Ne.symm hi]

theorem synthesizeReference (identifier : NodeId) (v : VariableId) (s : ScopeId) (access : Access) :
    (g.synthesizeReference identifier v s access).2.Catalogued :=
  (h.pushReference _).congr ((view_addThroughs catalog).trans IgnoresBindings.bound)

/-- All that an operation has to see to is that a node gets a live scope. -/
theorem perform {a : Arena} (step : ScopeStep)
    (hlive : ∀ n s, step = .registerNode n s → g.LiveScope s) :
    (step.perform a g).2.Catalogued := by
  cases step with
  | addScope kind block upper => exact h.addScope kind block upper
  | registerNode n s => exact h.registerNode n (hlive n s rfl)
  | removeScope s => exact h.removeScopeWithin _ s
  | replaceScope s children => exact h.replaceScope s _
  | mergeScope source destination => exact h.mergeScope source destination
  | addReference s identifier name access init => exact h.pushReference _
  | synthesizeReference identifier v s access => exact h.synthesizeReference identifier v s access
  | resolveStores =>
    exact resolveStores_induct (fun hg => hg.congr (view_declareImplicit catalog))
      (fun hg => hg.synthesizeReference ..) h
  | declare s name identifier kind => exact h.congr (view_declare catalog)
  | resolve r => exact h.congr (view_resolveAlong catalog ..)
  | removeVariable pattern s => exact h.congr (view_removeVariable catalog)
  | removeReference identifier s => exact h.congr (view_removeReference catalog)
  | declareReactive s identifier => exact h.congr (view_declareReactive catalog)
  | declareImplicit s name => exact h.congr (view_declareImplicit catalog)

theorem run {a : Arena} {steps : List ScopeStep}
    (hlive : ∀ k n s, steps[k]? = some (.registerNode n s) →
      (ScopeStep.run a (steps.take k) g).LiveScope s) :
    (ScopeStep.run a steps g).Catalogued := by
  induction steps generalizing g with
  | nil => exact h
  | cons step steps ih =>
    refine ih (h.perform step fun n s hstep => hlive 0 n s (by rw [hstep]; rfl)) fun k n s hk => ?_
    exact hlive (k + 1) n s hk

end

end Catalogued

end ScopeGraph

open ScopeStep

/-- After every run in which nodes are given live scopes only, the index of the scopes has for each
node just its live scopes, each once, and the references of an identifier are those that a search of
all references finds. -/
theorem run_indexes_agree {a : Arena} {steps : List ScopeStep}
    (hlive : ∀ k n s, steps[k]? = some (.registerNode n s) →
      (run a (steps.take k) .empty).LiveScope s) :
    let g := run a steps .empty
    (∀ n, (g.nodeScopes.get n).Nodup ∧
      (∀ s, s ∈ g.nodeScopes.get n ↔ g.LiveScope s ∧ (g.scopeAt s).block = n) ∧
      (g.nodeScopes.lookup n = none ↔ ∀ s, g.LiveScope s → (g.scopeAt s).block ≠ n) ∧
      ((∃ s, g.acquire? n = some s) ↔ ∃ s, g.LiveScope s ∧ (g.scopeAt s).block = n)) ∧
    ∀ i, g.referencesTo i = g.liveReferences.filter fun r => (g.referenceAt r).identifier == i := by
  intro g
  have hempty : ScopeGraph.empty.Catalogued :=
    ⟨⟨nodup_nil, fun _ => nodup_nil, fun n s =>
      ⟨nofun, fun hs => absurd hs.1.1 (Nat.not_lt_zero s)⟩⟩, nofun,
      fun _ => rfl⟩
  have hrun : g.Catalogued := hempty.run hlive
  have hnone : ∀ n, g.nodeScopes.get n = [] ↔ ∀ s, ¬ g.Belongs s n := fun n => by
    simp only [eq_nil_iff_forall_not_mem, hrun.scopes.mem]
  refine ⟨fun n => ⟨hrun.scopes.nodup n, hrun.scopes.mem n, ?_, ?_⟩, fun i => ?_⟩
  · rw [hrun.tight.lookup_eq_none, hnone]
    exact forall_congr' fun s => not_and
  · rw [← Option.isSome_iff_exists, ScopeGraph.acquire?, isSome_head?, Ne, hnone, not_forall_not]
    rfl
  · rw [ScopeGraph.referencesTo, hrun.references, ScopeGraph.liveReferences, filter_filter,
      filter_filter]
    simp only [Bool.and_comm]

/-- Of two scopes with one node the inner one gets another node, which then gets a second scope and
loses the first. One of the two references of an identifier goes. -/
def filingRun : List ScopeStep :=
  [.addScope .global 0 none, .addScope .function 0 (some 0), .addReference 1 5 "x" .read false,
    .addReference 1 5 "x" .write false, .registerNode 3 1, .addScope .block 3 (some 1),
    .removeReference 5 1, .replaceScope 1 none]

theorem run_indexes_agree_filing :
    let g := run default filingRun .empty
    g.nodeScopes.get 3 = [2] ∧ g.referencesTo 5 = [1] ∧
      g.referencesTo 5 = g.liveReferences.filter fun r => (g.referenceAt r).identifier == 5 := by
  refine ⟨by decide +kernel, by decide +kernel, (run_indexes_agree ?_).2 5⟩
  intro k n s hk
  have hlt : k < 8 := (List.getElem?_eq_some_iff.mp hk).1
  interval_cases k <;> cases hk
  decide +kernel

end Loom
