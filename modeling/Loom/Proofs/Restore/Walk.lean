import Loom.Proofs.Restore.Descent
import Loom.Proofs.Restore.Standing

/-!
The walk over the script of a woven document: the statement of each task is the outermost node with
its range, and the tasks are undone one after the other, what is inside of a statement first.
-/

open List

namespace Loom

/-- The first node in pre-order that starts at or after a task is the outermost one with its
range. -/
theorem Arena.Rooted.standsFor {h : Arena} {program n : NodeId} {t : Task} (ht : h.Rooted program)
    (hrange : h.range n = t.range)
    (hfirst : h.firstFrom? (h.preorder program) t.range.start = some n) :
    h.StandsFor program t n ∧ n ≠ program := by
  obtain ⟨-, before, after, heq, hbefore⟩ := find?_eq_some_iff_append.mp hfirst
  have hmem : n ∈ h.preorder program := by
    rw [heq]
    exact mem_append_right _ mem_cons_self
  obtain ⟨hn, hne⟩ := ht.mem_preorder.mp hmem
  refine ⟨⟨hn, hrange, fun y hy hprog hyn hne' hsame => ?_⟩, hne⟩
  have hy' := ht.mem_preorder.mpr ⟨hy, hprog⟩
  have hpairwise := ht.pairwise_preorder
  rw [heq] at hy' hpairwise
  rcases mem_append.mp hy' with hy' | hy'
  · have hlate := hbefore y hy'
    simp [hsame] at hlate
  · have hafter := (mem_cons.mp hy').resolve_left hne'
    exact (pairwise_cons.mp (pairwise_append.mp hpairwise).2.1).1 y hafter hyn

namespace Restorer

variable {source : Text} {woven : Woven} {scripts : List Fragment} {h : Arena} {program : NodeId}
  {coords : Coordinates} {s s1 s' : Restorer} {ps : List (Task × NodeId)} {ts ts' : List Task}

/-- The items went to the tasks `ts`, one task after the other. -/
structure Gathered (coords : Coordinates) (ts : List Task) (s s' : Restorer) : Prop where
  tokens : s'.tokenState = ts.foldl (Task.gather coords) s.tokenState
  comments : s'.commentState = ts.foldl (Task.gather coords) s.commentState

theorem Gathered.trans (h : Gathered coords ts s s1) (h' : Gathered coords ts' s1 s') :
    Gathered coords (ts ++ ts') s s' := by
  refine ⟨?_, ?_⟩
  · rw [foldl_append, ← h.tokens, h'.tokens]
  · rw [foldl_append, ← h.comments, h'.comments]

theorem gathered_of_undoAll (hok : undoAll coords ps s = .ok s') :
    Gathered coords (ps.map Prod.fst) s s' := by
  induction ps generalizing s with
  | nil =>
    cases hok
    exact ⟨rfl, rfl⟩
  | cons p ps ih =>
    obtain ⟨s1, hfinish, hrest⟩ :=
      bind_eq_ok (show (finishTask coords p.1 p.2 s >>= _) = .ok s' from hok)
    obtain ⟨-, -, htokens, hcomments⟩ := finishTask_eq_ok hfinish
    have hfirst : Gathered coords [p.1] s s1 := ⟨htokens, hcomments⟩
    exact hfirst.trans (ih hrest)

/-- A successful walk over the whole script undoes each task at its statement, what is inside of a
statement first. -/
theorem undoAll_of_walkAll (ht : h.Rooted program)
    (hfresh : ∀ x, h.Below program x → woven.arena.size ≤ x)
    (hlayout : Layout source woven scripts) {scopes : ScopeGraph} {tokens : List Token}
    {comments : List Comment}
    (hok : walkAll (.ofText source) h.size (h.children program)
      (.start woven.script h scopes tokens comments) = .ok s')
    (hempty : s'.tasks = []) :
    ∃ ps, (ps.map Prod.fst).Perm woven.script.tasks ∧
      (∀ p ∈ ps, p.1 ∈ woven.script.tasks ∧ h.StandsFor program p.1 p.2 ∧ p.2 ≠ program) ∧
      (ps.Pairwise fun p q => ¬ h.Below p.2 q.2) ∧
      Gathered (.ofText source) (ps.map Prod.fst) (start woven.script h scopes tokens comments) s' ∧
      undoAll (.ofText source) ps { start woven.script h scopes tokens comments with tasks := [] } =
        .ok { s' with tasks := [] } := by
  have hforeign : ∀ t ∈ woven.script.tasks, t.Foreign h program := fun t hmem f hf hbelow =>
    absurd (hfresh f.owner hbelow)
      (Nat.not_le.mpr (hlayout.owner_lt f (mem_taskFragments.mpr ⟨t, hmem, hf⟩)))
  have hagrees := start_agrees ht hforeign (.ofText source) scopes tokens comments
  rw [hok] at hagrees
  obtain ⟨ps, applied, hassign, hperm, happlied⟩ := hagrees
  rw [hempty] at hassign
  have hassigned := Arena.assigned_of_assign? hassign
  have htasks : woven.script.tasks = ps.map Prod.fst := by
    rw [← append_nil (ps.map _)]
    exact hassigned.tasks
  have hgathered := gathered_of_undoAll (happlied.run [])
  refine ⟨applied, htasks ▸ hperm.map Prod.fst, fun p hp => ?_, happlied.order,
    ⟨hgathered.tokens, hgathered.comments⟩, happlied.run []⟩
  have hp := hperm.mem_iff.mp hp
  rw [htasks]
  exact ⟨mem_map_of_mem hp, ht.standsFor (hassigned.range p hp)
    (hassigned.first hlayout.sorted p hp)⟩

end Restorer

/-- The scopes of the wrappers `ms` went to the markup nodes, in this order. At each turn the script
nodes are those of `h` without the statements of some wrappers. -/
inductive Reconciled (tasks : List Task) (h : Arena) (program : NodeId) :
    List Match → ScopeGraph → ScopeGraph → Prop
  | nil (g : ScopeGraph) : Reconciled tasks h program [] g g
  | cons {m : Match} {ms : List Match} {g g' : ScopeGraph} (a : Arena) (gone : List NodeId)
    (size : a.size = h.size) (statements : ∀ y ∈ gone, ∃ t ∈ tasks, h.StandsFor program t y)
    (kinds : ∀ x, h.Below program x → a.kind x = (h.kind x).dropAll gone)
    (shape : m.task.Shape a m.node m.targets)
    (rest : Reconciled tasks h program ms (m.task.reconcile a m.node m.targets g) g') :
    Reconciled tasks h program (m :: ms) g g'

theorem Reconciled.append {tasks : List Task} {h : Arena} {program : NodeId} {ms ms' : List Match}
    {g g1 g' : ScopeGraph} (h1 : Reconciled tasks h program ms g g1)
    (h2 : Reconciled tasks h program ms' g1 g') : Reconciled tasks h program (ms ++ ms') g g' := by
  induction h1 with
  | nil g => exact h2
  | cons a gone size statements kinds shape _ ih => exact .cons a gone size statements kinds shape (ih h2)

/-- The wrappers `more` were undone between two states of the walk, after the wrappers `done`. -/
structure Walked (source : Text) (woven : Woven) (scripts : List Fragment) (h : Arena)
    (program : NodeId) (done more : List Match) (s s' : Restorer) : Prop where
  standing : Standing source woven scripts h program s'.bench (done ++ more)
  scopes : Reconciled woven.script.tasks h program more s.bench.scopes s'.bench.scopes

namespace Walked

variable {source : Text} {woven : Woven} {scripts : List Fragment} {h : Arena} {program : NodeId}
  {done more : List Match} {s s1 s' : Restorer} {m : Match} {ps : List (Task × NodeId)}

theorem refl (hs : Standing source woven scripts h program s.bench done) :
    Walked source woven scripts h program done [] s s :=
  ⟨by rw [append_nil]; exact hs, .nil _⟩

theorem cons (h1 : Walked source woven scripts h program done [m] s s1)
    (h2 : Walked source woven scripts h program (done ++ [m]) more s1 s') :
    Walked source woven scripts h program done (m :: more) s s' := by
  refine ⟨?_, h1.scopes.append h2.scopes⟩
  have hstanding := h2.standing
  rwa [append_assoc] at hstanding

theorem finishTask {t : Task} {n : NodeId}
    (hok : Restorer.finishTask (.ofText source) t n s = .ok s')
    (hs : Standing source woven scripts h program s.bench done) (htask : t ∈ woven.script.tasks)
    (hn : h.StandsFor program t n) (hne : n ≠ program) (hfresh : ∀ m ∈ done, ¬ h.Below m.node n) :
    ∃ targets, Walked source woven scripts h program done [⟨t, n, targets⟩] s s' := by
  obtain ⟨⟨tokens, tokens', comments, comments', hrestore⟩, -⟩ := Restorer.finishTask_eq_ok hok
  obtain heq | ⟨x, hx, hlists⟩ := hn.below.cases_tail
  · exact absurd heq hne
  obtain ⟨targets, hstanding, a, hsize, hkind, hshape, hscopes⟩ :=
    hs.undo htask hx hlists hn.range hn.outermost hfresh hrestore
  refine ⟨targets, hstanding, ?_⟩
  rw [hscopes]
  refine .cons a (done.map Match.node) (hsize.trans hs.size) (fun y hy => ?_) (fun y hy => ?_)
    hshape (.nil _)
  · obtain ⟨m, hm, rfl⟩ := mem_map.mp hy
    exact ⟨m.task, hs.task m hm, hs.standsFor hm⟩
  · rw [hkind, hs.kind y hy]

/-- Tasks undone at their statements, none of which is inside of an earlier one. -/
theorem undoAll (hok : Restorer.undoAll (.ofText source) ps s = .ok s')
    (hs : Standing source woven scripts h program s.bench done)
    (hps : ∀ p ∈ ps, p.1 ∈ woven.script.tasks ∧ h.StandsFor program p.1 p.2 ∧ p.2 ≠ program)
    (horder : ps.Pairwise fun p q => ¬ h.Below p.2 q.2)
    (hfresh : ∀ p ∈ ps, ∀ m ∈ done, ¬ h.Below m.node p.2) :
    ∃ more, more.map Match.task = ps.map Prod.fst ∧
      Walked source woven scripts h program done more s s' := by
  induction ps generalizing s done with
  | nil =>
    cases hok
    exact ⟨[], rfl, .refl hs⟩
  | cons p ps ih =>
    rw [forall_mem_cons] at hps hfresh
    rw [pairwise_cons] at horder
    obtain ⟨s1, hfinish, hrest⟩ :=
      bind_eq_ok (show (Restorer.finishTask _ p.1 p.2 s >>= _) = .ok s' from hok)
    obtain ⟨targets, hfirst⟩ := finishTask hfinish hs hps.1.1 hps.1.2.1 hps.1.2.2 hfresh.1
    obtain ⟨more, htasks, hmore⟩ := ih hrest hfirst.standing hps.2 horder.2 fun q hq =>
      forall_mem_append.mpr ⟨hfresh.2 q hq, forall_mem_singleton.mpr (horder.1 q hq)⟩
    exact ⟨⟨p.1, p.2, targets⟩ :: more, congrArg (p.1 :: ·) htasks, hfirst.cons hmore⟩

/-- A successful walk over the whole script. -/
theorem program_walked (ht : HostTree woven.arena h program) (hlayout : Layout source woven scripts)
    {scopes : ScopeGraph} {tokens : List Token} {comments : List Comment}
    (hok : Restorer.walkAll (.ofText source) h.size (h.children program)
      (.start woven.script h scopes tokens comments) = .ok s') (hempty : s'.tasks = []) :
    ∃ done, (done.map Match.task).Perm woven.script.tasks ∧
      Walked source woven scripts h program [] done (.start woven.script h scopes tokens comments) s' ∧
      Restorer.Gathered (.ofText source) (done.map Match.task)
        (.start woven.script h scopes tokens comments) s' := by
  obtain ⟨ps, hperm, hps, horder, hgathered, hrun⟩ :=
    Restorer.undoAll_of_walkAll ht.toRooted ht.fresh hlayout hok hempty
  obtain ⟨done, hdone, hwalked⟩ := undoAll hrun (.start ht hlayout scopes) hps horder (by simp)
  rw [← hdone] at hperm hgathered
  exact ⟨done, hperm, ⟨hwalked.standing, hwalked.scopes⟩, hgathered⟩

end Walked

end Loom
