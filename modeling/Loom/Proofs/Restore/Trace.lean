import Loom.Proofs.Restore.Finish

/-!
The trace of restoring: the wrappers that the walk undoes, whatever the parsed script looks like.

Each task is undone once. The scopes, the tokens and the comments are what the tasks make of them,
in the order of the walk.
-/

open List

namespace Loom

variable {ns : List NodeId} {tokens : List Token} {comments : List Comment} {n : NodeId}
  {v : VirtualScript}

/-- A wrapper that was undone: its statement, in the tree as it was then, and the nodes for its
fragments. -/
structure Undoing where
  task : Task
  arena : Arena
  statement : NodeId
  targets : List NodeId

namespace Undoing

/-- The scopes after the wrapper is gone. -/
def reconcile (g : ScopeGraph) (u : Undoing) : ScopeGraph :=
  u.task.reconcile u.arena u.statement u.targets g

/-- The statement has the form of the wrapper. -/
def Matched (u : Undoing) : Prop := u.task.Shape u.arena u.statement u.targets

end Undoing

namespace Workbench

variable {coords : Coordinates} {w w' : Workbench}

/-! The end of restoring leaves the scopes alone. -/

theorem cleanStatement_scopes (h : w.cleanStatement coords v n = .ok w') :
    w'.scopes = w.scopes := by
  unfold cleanStatement at h
  dsimp only at h
  split at h
  · split at h <;> cases h
    rfl
  · split at h
    · split at h <;> cases h
      rfl
    · exact (remap_moved h).scopes

theorem cleanStatements_scopes (h : w.cleanStatements coords v ns = .ok w') :
    w'.scopes = w.scopes := by
  induction ns generalizing w with
  | nil =>
    cases h
    rfl
  | cons n ns ih =>
    obtain ⟨w1, hstep, hrest⟩ :=
      bind_eq_ok (show (w.cleanStatement coords v n >>= _) = .ok w' from h)
    exact (ih hrest).trans (cleanStatement_scopes hstep)

end Workbench

/-- Undoing a wrapper reconciles the scopes with a statement that has its form. -/
theorem Task.restore_scopes {t : Task} {coords : Coordinates} {w w' : Workbench}
    {tokens' : List Token} {comments' : List Comment}
    (h : t.restore coords w n tokens comments = .ok (w', tokens', comments')) :
    ∃ u : Undoing, u.task = t ∧ u.Matched ∧ w'.scopes = u.reconcile w.scopes := by
  obtain ⟨targets, w1, w2, htgts, hshift, hattach, rfl, -, -⟩ := Task.restore_eq_ok h
  obtain ⟨-, hscopes, hkind, -⟩ := Workbench.shiftTargets_still hshift
  refine ⟨⟨t, w1.arena, n, targets⟩, rfl, (Task.targets?_eq_some.mp htgts).congr fun x _ _ => hkind
    x, ?_⟩
  rw [Workbench.attachTargets_scopes hattach, hscopes]
  rfl

/-- The wrappers `us` were undone between two states of the walk, in this order. -/
structure Restorer.Traced (coords : Coordinates) (us : List Undoing) (s s' : Restorer) : Prop where
  tasks : s.tasks.Perm (us.map Undoing.task ++ s'.tasks)
  matched : ∀ u ∈ us, u.Matched
  scopes : s'.bench.scopes = us.foldl Undoing.reconcile s.bench.scopes
  gathered : Gathered coords (us.map Undoing.task) s s'

namespace Restorer.Traced

variable {coords : Coordinates} {s s1 s' : Restorer} {us us' : List Undoing} {fuel : Nat}

theorem refl (coords : Coordinates) (s : Restorer) : Traced coords [] s s :=
  ⟨.refl _, fun _ h => absurd h not_mem_nil, rfl, rfl, rfl⟩

theorem trans (h : Traced coords us s s1) (h' : Traced coords us' s1 s') :
    Traced coords (us ++ us') s s' := by
  refine ⟨?_, forall_mem_append.mpr ⟨h.matched, h'.matched⟩, ?_, ?_⟩
  · rw [map_append, append_assoc]
    exact h.tasks.trans (h'.tasks.append_left _)
  · rw [foldl_append, ← h.scopes, h'.scopes]
  · rw [map_append]
    exact h.gathered.trans h'.gathered

theorem of_walkAll (hwalk : ∀ {n s s'}, walk coords fuel n s = .ok s' → ∃ us, Traced coords us s s')
    (hok : walkAll coords fuel ns s = .ok s') : ∃ us, Traced coords us s s' := by
  induction ns generalizing s with
  | nil =>
    unfold walkAll at hok
    cases hok
    exact ⟨[], .refl coords _⟩
  | cons n ns ih =>
    unfold walkAll at hok
    obtain ⟨s1, hn, hns⟩ := bind_eq_ok hok
    obtain ⟨us, htraced⟩ := hwalk hn
    obtain ⟨us', htraced'⟩ := ih hns
    exact ⟨us ++ us', htraced.trans htraced'⟩

theorem of_walk (hok : walk coords fuel n s = .ok s') : ∃ us, Traced coords us s s' := by
  induction fuel generalizing n s s' with
  | zero =>
    unfold walk at hok
    cases hok
    exact ⟨[], .refl coords _⟩
  | succ fuel ih =>
    rcases walk_eq_ok hok with ⟨hwalk, -⟩ | ⟨t, rest, s1, hnext, -, hwalk, hfinish⟩
    · exact of_walkAll ih hwalk
    · obtain ⟨us, htraced⟩ := of_walkAll ih hwalk
      obtain ⟨⟨_, _, _, _, hrestore⟩, htasks, htokens, hcomments⟩ := finishTask_eq_ok hfinish
      obtain ⟨u, rfl, hmatched, hscopes⟩ := Task.restore_scopes hrestore
      refine ⟨us ++ [u], ?_, ?_, ?_, ?_⟩
      · have hperm := htraced.tasks.cons u.task
        rw [hnext, htasks, map_append, append_assoc]
        exact hperm.trans perm_middle.symm
      · exact forall_mem_append.mpr ⟨htraced.matched, forall_mem_singleton.mpr hmatched⟩
      · rw [foldl_append, hscopes, htraced.scopes]
        rfl
      · have hgathered : Gathered coords (us.map Undoing.task) s s1 :=
          ⟨htraced.gathered.tokens, htraced.gathered.comments⟩
        have hlast : Gathered coords [u.task] s1 _ := ⟨htokens, hcomments⟩
        rw [map_append]
        exact hgathered.trans hlast

end Restorer.Traced

/-- Restoring undoes every task once. The scopes, tokens and comments are what the tasks make of
them. -/
theorem restore_traced {coords : Coordinates} {h : Arena} {scopes : ScopeGraph} {program : NodeId}
    {roots : List NodeId}
    {r : Restored} (hok : restore coords v h scopes program tokens comments roots = .ok r) :
    ∃ us : List Undoing, (us.map Undoing.task).Perm v.tasks ∧ (∀ u ∈ us, u.Matched) ∧
      r.scopes = us.foldl Undoing.reconcile scopes ∧
      r.tokens = v.collect coords (us.map Undoing.task) tokens ∧
      r.comments = v.collect coords (us.map Undoing.task) comments := by
  obtain ⟨s, w, hwalk, hempty, hclean, -, hscopes, htokens, hcomments⟩ := restore_eq_ok hok
  obtain ⟨us, htraced⟩ := Restorer.Traced.of_walkAll Restorer.Traced.of_walk hwalk
  refine ⟨us, ?_, htraced.matched, ?_, htraced.gathered.collect htokens hcomments⟩
  · have htasks := htraced.tasks
    rw [hempty, append_nil] at htasks
    exact htasks.symm
  · rw [hscopes, Workbench.cleanStatements_scopes hclean]
    exact htraced.scopes

end Loom
