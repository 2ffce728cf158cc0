import Loom.Proofs.Restore.Coordinates
import Loom.Proofs.Restore.Located
import Loom.Proofs.Restore.Trace

/-!
Which node of a parsed script a task is undone at: the first one in pre-order that starts at or
after the task. A task misses its node only if that one has another range.
-/

open List

namespace Loom

open Restorer Sample

/-- Tasks meet nodes of the parsed script exactly. -/
structure TasksMatched (coords : Coordinates) (v : VirtualScript) (h : Arena) (scopes : ScopeGraph)
    (program : NodeId)
    (tokens : List Token) (comments : List Comment) (roots : List NodeId) : Prop where
  /-- Pre-order has each node below the program once. -/
  nodes : ∀ x, x ∈ h.preorder program ↔ h.Below program x ∧ x ≠ program
  once : (h.preorder program).Nodup
  /-- When a parse is restored, the tasks in their order went to nodes in pre-order, each to the
  first one that starts at or after it, which has its range. The walk undid each task once, at its
  node, and nothing else; a task at a node inside of another one came first. -/
  sound : ∀ r, restore coords v h scopes program tokens comments roots = .ok r →
    ∃ ps applied : List (Task × NodeId), ∃ s : Restorer,
      ps.map Prod.fst = v.tasks ∧ (ps.map Prod.snd).Sublist (h.preorder program) ∧
      (∀ p ∈ ps, h.range p.2 = p.1.range ∧ h.firstFrom? (h.preorder program) p.1.range.start = some p.2) ∧
      applied.Perm ps ∧ applied.Pairwise (fun p q => ¬ h.Below p.2 q.2) ∧
      walkAll coords h.size (h.children program) (.start v h scopes tokens comments) = .ok s ∧
      undoAll coords applied { start v h scopes tokens comments with tasks := [] } = .ok s
  /-- When the first node at or after each task has its range, no failure is one of matching. -/
  complete :
    (∀ t ∈ v.tasks, ∃ n, h.firstFrom? (h.preorder program) t.range.start = some n ∧
      h.range n = t.range) →
    ∀ e, restore coords v h scopes program tokens comments roots = .error e → e.isMatching = false

/-- Tasks with increasing starts meet nodes of every script that has no slots for their fragments,
whatever undoing them changes on the way. -/
theorem restore_matches_tasks {v : VirtualScript} {h : Arena} {program : NodeId}
    (ht : h.Rooted program)
    (hforeign : ∀ t ∈ v.tasks, t.Foreign h program) (hinc : Task.Increasing v.tasks)
    (coords : Coordinates)
    (scopes : ScopeGraph) (tokens : List Token) (comments : List Comment) (roots : List NodeId) :
    TasksMatched coords v h scopes program tokens comments roots := by
  have hagrees := start_agrees ht hforeign coords scopes tokens comments
  unfold start at hagrees
  refine ⟨fun x => ht.mem_preorder, ht.nodup_preorder, fun r hok => ?_, fun hfirst e herror => ?_⟩
  · obtain ⟨s, -, hwalk, hempty, -⟩ := restore_eq_ok hok
    rw [hwalk] at hagrees
    obtain ⟨ps, applied, hassign, hperm, happlied⟩ := hagrees
    rw [hempty] at hassign
    have hassigned := Arena.assigned_of_assign? hassign
    have htasks : v.tasks = ps.map Prod.fst := by simpa using hassigned.tasks
    refine ⟨ps, applied, s, htasks.symm, hassigned.nodes, fun p hp => ?_, hperm, happlied.order,
      hwalk, ?_⟩
    · exact ⟨hassigned.range p hp, hassigned.first hinc p hp⟩
    · have hrun := happlied.run []
      rw [← hempty] at hrun ⊢
      exact hrun
  · obtain ⟨ps, hassign⟩ := Arena.assign?_of_first hinc hfirst
    rcases restore_error_cases herror with hwalk | ⟨s, hwalk, hleft⟩
    · rw [hwalk] at hagrees
      by_contra hmatching
      have hnone := hagrees (by simpa using hmatching)
      cases hnone.symm.trans hassign
    · rw [hwalk] at hagrees
      obtain ⟨qs, applied, hassign', -⟩ := hagrees
      have hempty : s.tasks = [] := by
        simpa using congrArg (Option.map Prod.snd) (hassign'.symm.trans hassign)
      rcases hleft with ⟨t, hmem, -⟩ | hclean
      · rw [hempty] at hmem
        cases hmem
      · exact (Workbench.cleanStatements_eq_error hclean).2

/-- The fragments of a woven script are for markup nodes, and those are not in the script. -/
theorem HostTree.foreign {woven : Woven} {h : Arena} {program : NodeId}
    (ht : HostTree woven.arena h program)
    (hacc : woven.Accepting) : ∀ t ∈ woven.script.tasks, t.Foreign h program := by
  intro t hmem f hf hbelow
  have howner := (hacc f (mem_taskFragments.mpr ⟨t, hmem, hf⟩)).1
  exact absurd (ht.fresh f.owner hbelow) (not_le.mpr howner)

/-- The conditional is the first node, and the value in it the fourth one; the value is undone
first. -/
theorem restore_matches_tasks_conditional : ∃ r, conditional.restored = .ok r ∧
    ∃ ps applied : List (Task × NodeId), ps.map Prod.fst = conditional.woven.script.tasks ∧
      ps.map Prod.snd = [6, 4] ∧ applied.Perm ps ∧
      applied.Pairwise fun p q => ¬ conditional.parsed.1.Below p.2 q.2 := by
  obtain ⟨r, hr⟩ := restored_ok conditional_restored
  have ht := conditional_hostTree
  have hranges : conditional.woven.script.tasks.map Task.range = [⟨0, 15⟩, ⟨9, 13⟩] := by cbv
  have hinc : Task.Increasing conditional.woven.script.tasks := by
    have hsorted : (conditional.woven.script.tasks.map Task.range).Pairwise fun r r' => r.start < r'.start := by
      rw [hranges]
      decide
    rw [pairwise_map] at hsorted
    exact hsorted
  have hmatched := restore_matches_tasks ht.toRooted (ht.foreign (weave_accepting _ _ _)) hinc
    (.ofText conditional.source) conditional.parsed.2.scopes conditional.parsed.2.tokens
    conditional.parsed.2.comments conditional.woven.roots
  obtain ⟨ps, applied, -, htasks, -, hfirst, hperm, horder, -⟩ := hmatched.sound r hr
  refine ⟨r, hr, ps, applied, htasks, ?_, hperm, horder⟩
  have hnodes : ps.map (some ∘ Prod.snd) = ((ps.map Prod.fst).map Task.range).map fun range =>
      conditional.parsed.1.firstFrom?
        (conditional.parsed.1.preorder conditional.parsed.2.program) range.start := by
    rw [map_map, map_map]
    exact map_congr_left fun p hp => (hfirst p hp).2.symm
  have hsome : ps.map (some ∘ Prod.snd) = [some 6, some 4] := by
    rw [hnodes, htasks, hranges]
    decide +kernel
  rw [← map_map] at hsome
  exact map_injective_iff.mpr (Option.some_injective _) hsome

end Loom
