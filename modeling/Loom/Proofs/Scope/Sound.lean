import Loom.Proofs.Scope.Index
import Loom.Proofs.Scope.Run

/-!
Sound scope graphs, and the edits that keep them sound.

A graph is sound when all its links agree, its index leads to live scopes only, and the global scope
is there. An edit of such a graph takes the objects that it works on from the graph itself: live
scopes, the own children of a scope, and variables that are seen from where they are used.
-/

namespace Loom

variable {a : Arena} {pattern identifier : NodeId} {g g' : ScopeGraph} {s : ScopeId}
  {step : ScopeStep}

namespace ScopeGraph

/-- The index files live scopes under their own nodes. -/
structure Filed (g : ScopeGraph) : Prop where
  keyed : g.nodeScopes.Keyed
  live : ∀ n, ∀ s ∈ g.nodeScopes.get n, g.LiveScope s ∧ (g.scopeAt s).block = n

/-- All links agree and every reference was looked up, the index leads to live scopes, and the
global scope is there, above all others. -/
structure Sound (g : ScopeGraph) : Prop where
  wellFormed : g.WellFormed fun _ => True
  filed : g.Filed
  global : g.LiveScope globalScope
  root : (g.scopeAt globalScope).upper = none

theorem Filed.congr (h : g.Filed) (ht : g'.treeView = g.treeView) (hn : g'.nodeView = g.nodeView) :
    g'.Filed := by
  have hindex : g'.nodeScopes = g.nodeScopes := congrArg Prod.fst hn
  refine ⟨hindex ▸ h.keyed, fun n s hs => ?_⟩
  rw [hindex] at hs
  rw [liveScope_congr ht]
  exact ⟨(h.live n s hs).1, (congrFun (congrArg Prod.snd hn) s).trans (h.live n s hs).2⟩

/-- What leaves the tree and the nodes alone need only keep the other links. -/
theorem Sound.congr (h : g.Sound) (ht : g'.treeView = g.treeView) (hn : g'.nodeView = g.nodeView)
    (hw : g'.WellFormed fun _ => True) : g'.Sound := by
  refine ⟨hw, h.filed.congr ht hn, ?_, ?_⟩
  · rw [liveScope_congr ht]
    exact h.global
  · rw [upper_congr ht]
    exact h.root

/-- A scope is filed under its own node only. -/
theorem Filed.mem_remove {n : NodeId} {s t : ScopeId} (h : g.Filed) :
    t ∈ (g.nodeScopes.remove (g.scopeAt s).block s).get n ↔ t ∈ g.nodeScopes.get n ∧ t ≠ s := by
  rw [h.keyed.get_remove]
  split
  · rename_i hn
    rw [List.mem_filter, bne_iff_ne, hn]
  · rename_i hn
    refine ⟨fun ht => ⟨ht, ?_⟩, And.left⟩
    rintro rfl
    exact hn (h.live n t ht).2.symm

/-! Lookups. -/

theorem Filed.acquire {n : NodeId} {s : ScopeId} (h : g.Filed) (hs : g.acquire? n = some s) :
    g.LiveScope s :=
  (h.live n s (List.mem_of_mem_head? hs)).1

theorem Sound.liveScope_innermost (h : g.Sound) (a : Arena) (n : NodeId) :
    g.LiveScope (g.innermostScope a n) := by
  have hwithin : ∀ fuel n, ∀ s ∈ g.innermostWithin a fuel n, g.LiveScope s := by
    intro fuel
    induction fuel with
    | zero => exact fun _ _ hs => by cases hs
    | succ fuel ih =>
      intro n s hs
      unfold innermostWithin at hs
      split at hs
      · rename_i t ht
        cases hs
        exact (h.filed.live n _ (List.mem_of_getLast? ht)).1
      · obtain ⟨p, -, hs⟩ := Option.bind_eq_some_iff.mp hs
        exact ih p s hs
  unfold innermostScope
  cases hs : g.innermostWithin a a.size n with
  | none => exact liveScope_topScope h.wellFormed.tree h.global
  | some s => exact hwithin _ _ s hs

/-- A variable that is found from a scope is declared above it. -/
theorem WellFormed.findVariable {settled : ReferenceId → Prop} {s : ScopeId} {name : String}
    {v : VariableId}
    (h : g.WellFormed settled) (hs : g.LiveScope s) (hv : g.findVariable s name = some v) :
    g.LiveVariable v ∧ (g.variableAt v).scope ∈ g.ancestors s := by
  obtain ⟨t, ht, hdecl⟩ := List.exists_of_findSome?_eq_some hv
  obtain ⟨hvar, hscope, -⟩ :=
    h.declarations.declared (h.tree.live_of_below hs ((h.tree.mem_ancestors hs).mp ht)) hdecl
  exact ⟨hvar, hscope ▸ ht⟩

/-! Edits. -/

section Register

variable {n : NodeId}

theorem treeView_registerNode : (g.registerNode n s).treeView = g.treeView :=
  treeView_modifyScope fun _ => ⟨rfl, rfl, rfl⟩

theorem block_registerNode (hs : s < g.scopes.size) (t : ScopeId) :
    ((g.registerNode n s).scopeAt t).block = if t = s then n else (g.scopeAt t).block := by
  have hget : (g.registerNode n s).scopeAt t = (g.modifyScope s ({ · with block := n })).scopeAt
    t := rfl
  rw [hget, scopeAt_modifyScope]
  by_cases ht : t = s <;> simp [ht, hs]

theorem Filed.mem_registerNode {t : ScopeId} {m : NodeId} (h : g.Filed) :
    t ∈ (g.registerNode n s).nodeScopes.get m ↔ if t = s then m = n
      else t ∈ g.nodeScopes.get m := by
  have hindex : (g.registerNode n s).nodeScopes = (g.nodeScopes.remove (g.scopeAt s).block s).push n
      s := rfl
  rw [hindex, NodeIndex.mem_get_push, h.mem_remove]
  by_cases ht : t = s <;> simp [ht]

theorem Filed.registerNode (h : g.Filed) (hs : g.LiveScope s) : (g.registerNode n s).Filed := by
  refine ⟨(h.keyed.remove ..).push .., fun m t ht => ?_⟩
  rw [h.mem_registerNode] at ht
  rw [liveScope_congr treeView_registerNode, block_registerNode hs.1]
  split at ht
  · rename_i hts
    exact ⟨hts ▸ hs, (if_pos hts).trans ht.symm⟩
  · rename_i hts
    rw [if_neg hts]
    exact h.live m t ht

theorem Sound.registerNode (h : g.Sound) (hs : g.LiveScope s) : (g.registerNode n s).Sound := by
  refine ⟨h.wellFormed.registerNode, h.filed.registerNode hs, ?_, ?_⟩
  · rw [liveScope_congr treeView_registerNode]
    exact h.global
  · rw [upper_congr treeView_registerNode]
    exact h.root

end Register

theorem Sound.removeVariable (h : g.Sound) (a : Arena) (pattern : NodeId) (hs : g.LiveScope s) :
    (g.removeVariable a pattern s).Sound :=
  h.congr (view_removeVariable treeView) (view_removeVariable nodeView)
    (h.wellFormed.removeVariable hs)

theorem Sound.removeReference (h : g.Sound) (identifier : NodeId) (hs : g.LiveScope s) :
    (g.removeReference identifier s).2.Sound :=
  h.congr (view_removeReference treeView) (view_removeReference nodeView)
    (h.wellFormed.removeReference hs)

section Dissolve

variable {src dst : ScopeId} {new : List ScopeId} {settled : ReferenceId → Prop}

/-- The scopes of `g'` are those of `g` without `src`, whose children are under `dst`. -/
structure Dissolved (g g' : ScopeGraph) (src dst : ScopeId) : Prop where
  live : ∀ t, g'.LiveScope t ↔ g.LiveScope t ∧ t ≠ src
  upper : ∀ t, g.LiveScope t → t ≠ src → (g'.scopeAt t).upper =
    (g.scopeAt t).upper.map (redirect src dst)
  block : ∀ t, t ≠ src → (g'.scopeAt t).block = (g.scopeAt t).block
  index : g'.nodeScopes = g.nodeScopes.remove (g.scopeAt src).block src

theorem WellFormed.dissolved_replaceScope (h : g.WellFormed settled) (hs : g.LiveScope src)
    (hup : g.Up src dst)
    (hnew : new.Perm (g.scopeAt src).children) : Dissolved g (g.replaceScope src new) src dst := by
  obtain ⟨-, habs, hlive⟩ := h.tree.replaceScope hs hup hnew
  have hblock : (g.handUp src dst new).nodeView = g.nodeView := by
    rw [view_handUp nodeView, view_replaceTree nodeView]
  rw [replaceScope_eq hup] at habs hlive ⊢
  generalize g.handUp src dst new = adopted at hblock habs hlive ⊢
  have hblock' : ∀ t, (adopted.scopeAt t).block = (g.scopeAt t).block :=
    congrFun (congrArg Prod.snd hblock)
  constructor
  case live => exact fun t => hlive
  case upper => exact fun t ht hne => habs.upper (hlive.mpr ⟨ht, hne⟩)
  case block =>
    intro t hne
    rw [Retired.scopeAt_retireScope hne, hblock']
  case index =>
    have hindex : adopted.nodeScopes = g.nodeScopes := congrArg Prod.fst hblock
    rw [← hindex, ← hblock']
    have hown : ((adopted.modifyScope src ({ · with set := [], upper := none })).scopeAt src).block =
        (adopted.scopeAt src).block :=
      field_modifyScope (·.block) (fun _ => by rfl) ..
    rw [← hown]
    rfl

theorem Dissolved.filed (hd : Dissolved g g' src dst) (h : g.Filed) : g'.Filed := by
  refine ⟨hd.index ▸ h.keyed.remove .., fun n s hs => ?_⟩
  rw [hd.index, h.mem_remove] at hs
  obtain ⟨hlive, hblock⟩ := h.live n s hs.1
  exact ⟨(hd.live s).mpr ⟨hlive, hs.2⟩, (hd.block s hs.2).trans hblock⟩

theorem Sound.replaceScope (h : g.Sound) (hs : g.LiveScope src)
    (hnew : new.Perm (g.scopeAt src).children) : (g.replaceScope src new).Sound := by
  have hw := h.wellFormed.replaceScope hs hnew
  cases hup : (g.scopeAt src).upper with
  | none =>
    rw [replaceScope_root hup]
    exact h
  | some dst =>
    have hd := h.wellFormed.dissolved_replaceScope hs hup hnew
    have hne : globalScope ≠ src := by
      rintro rfl
      rw [h.root] at hup
      cases hup
    refine ⟨hw, hd.filed h.filed, (hd.live _).mpr ⟨h.global, hne⟩, ?_⟩
    rw [hd.upper _ h.global hne, h.root]
    rfl

end Dissolve

section Declare

variable {v : VariableId} {access : Access}

theorem Sound.declareImplicit (h : g.Sound) (name : String) (hs : g.LiveScope s) :
    (g.declareImplicit s name).2.Sound :=
  h.congr ((view_declareImplicit treeView) ..) (view_declareImplicit nodeView)
    (h.wellFormed.declareImplicit hs)

theorem Sound.declareReactive (h : g.Sound) (a : Arena) (identifier : NodeId) (hs : g.LiveScope s) :
    (g.declareReactive a s identifier).2.Sound :=
  h.congr (view_declareReactive treeView) (view_declareReactive nodeView)
    (h.wellFormed.declareReactive hs)

theorem Sound.synthesizeReference (h : g.Sound) (hv : g.LiveVariable v) (hs : g.LiveScope s)
    (hmem : (g.variableAt v).scope ∈ g.ancestors s) :
    (g.synthesizeReference identifier v s access).2.Sound := by
  refine h.congr (view_synthesizeReference treeView) (view_synthesizeReference nodeView) ?_
  have hbelow := (h.wellFormed.tree.mem_ancestors hs).mp hmem
  exact WellFormedBut.weaken (h.wellFormed.synthesizeReference hv hs hbelow)
    fun _ _ => ⟨id, by simp⟩

end Declare

end ScopeGraph

namespace ScopeStep

open ScopeGraph

/-- An edit that takes what it works on from the graph: live scopes, the own children of a scope
that is replaced, and for a reference a variable that its scope sees. -/
def Admissible (g : ScopeGraph) : ScopeStep → Prop
  | .registerNode _ s | .removeVariable _ s | .removeReference _ s | .declareReactive s _
  | .declareImplicit s _ => g.LiveScope s
  | .replaceScope s children => g.LiveScope s ∧ children = some (g.scopeAt s).children
  | .synthesizeReference _ v s _ =>
    g.LiveVariable v ∧ g.LiveScope s ∧ (g.variableAt v).scope ∈ g.ancestors s
  | _ => False

/-- Each edit is admissible when its turn comes. -/
def AdmissibleRun (a : Arena) : List ScopeStep → ScopeGraph → Prop
  | [], _ => True
  | step :: steps, g => step.Admissible g ∧ AdmissibleRun a steps (step.perform a g).2

theorem run_cons (step : ScopeStep) (steps : List ScopeStep) (g : ScopeGraph) :
    run a (step :: steps) g = run a steps (step.perform a g).2 := rfl

theorem run_append (steps more : List ScopeStep) (g : ScopeGraph) :
    run a (steps ++ more) g = run a more (run a steps g) :=
  List.foldl_append

theorem admissibleRun_append {steps more : List ScopeStep} :
    AdmissibleRun a (steps ++ more) g ↔
      AdmissibleRun a steps g ∧ AdmissibleRun a more (run a steps g) := by
  induction steps generalizing g with
  | nil => simp [AdmissibleRun, run]
  | cons step steps ih => simp [AdmissibleRun, ih, run_cons, and_assoc]

theorem admissibleRun_singleton : AdmissibleRun a [step] g ↔ step.Admissible g := by
  simp [AdmissibleRun]

end ScopeStep

namespace ScopeGraph

variable {steps : List ScopeStep}

theorem Sound.perform (h : g.Sound) (hstep : step.Admissible g) : (step.perform a g).2.Sound := by
  cases step with
  | registerNode n s => exact h.registerNode hstep
  | removeVariable pattern s => exact h.removeVariable a pattern hstep
  | removeReference identifier s => exact h.removeReference identifier hstep
  | replaceScope s children =>
    obtain ⟨hs, rfl⟩ := hstep
    exact h.replaceScope hs (.refl _)
  | synthesizeReference identifier v s access =>
    obtain ⟨hv, hs, hmem⟩ := hstep
    exact h.synthesizeReference hv hs hmem
  | declareReactive s identifier => exact h.declareReactive a identifier hstep
  | declareImplicit s name => exact h.declareImplicit name hstep
  | _ => exact hstep.elim

theorem Sound.run (h : g.Sound) (hrun : ScopeStep.AdmissibleRun a steps g) :
    (ScopeStep.run a steps g).Sound := by
  induction steps generalizing g with
  | nil => exact h
  | cons step steps ih => exact ih (h.perform hrun.1) hrun.2

/-- What a lawful run builds is well-formed with every reference settled if it settles them all. -/
theorem WellFormed.of_run (hrun : ScopeStep.LawfulRun a steps .empty [])
    (hsettled : ∀ r < (ScopeStep.run a steps .empty).references.size,
      r ∈ ScopeStep.settledRun a steps .empty []) :
    (ScopeStep.run a steps .empty).WellFormed fun _ => True :=
  WellFormedBut.weaken (WellFormed.empty.run hrun) fun {r} hr _ => ⟨id, by simp [hsettled r hr.1]⟩

theorem Filed.of_entries (hkeyed : g.nodeScopes.Keyed)
    (hentries : ∀ e ∈ g.nodeScopes, ∀ s ∈ e.2, g.LiveScope s ∧ (g.scopeAt s).block = e.1) :
    g.Filed := by
  exact ⟨hkeyed, fun n s hs => hentries _ (NodeIndex.entry_of_mem hs) s hs⟩

end ScopeGraph

end Loom
