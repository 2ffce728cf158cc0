import Loom.Proofs.Restore.Move
import Loom.Proofs.Restore.Shape
import Loom.Proofs.Tree.Blank

/-!
The walk over a parsed script.

The walk meets the nodes in pre-order, and the next task goes to the first node that starts at or
after it. Tasks are undone on the way up. That moves nodes, fills slots and takes statements out,
but only where the walk has been, so what it has yet to meet is as the parser made it.
-/

open List

namespace Loom

open Arena

variable {coords : Coordinates} {h : Arena} {program n x : NodeId} {ns : List NodeId} {t : Task}
  {fuel : Nat}

/-- A failure to find the node of a task. -/
def Failure.isMatching : Failure → Bool
  | .shape (.wrapperMatched ..) _ | .shape .wrapperMissing _ => true
  | _ => false

/-! Undoing a wrapper. -/

namespace Task

variable {ps : List (Fragment × NodeId)} {w : Workbench} {e : Failure}

theorem shiftTargets_eq_error (h : t.shiftTargets coords ps w = .error e) :
    ∃ a n, e = t.mismatch coords a n := by
  induction ps generalizing w with
  | nil => cases h
  | cons p ps ih =>
    unfold shiftTargets at h
    split at h
    · exact ih h
    · cases h
      exact ⟨_, _, rfl⟩

theorem attachTargets_eq_error (h : t.attachTargets coords ps w = .error e) :
    ∃ a n, e = t.mismatch coords a n := by
  induction ps generalizing w with
  | nil => cases h
  | cons p ps ih =>
    unfold attachTargets at h
    split at h
    · exact ih h
    · cases h
      exact ⟨_, _, rfl⟩

theorem restore_eq_error {n : NodeId} {tokens : List Token} {comments : List Comment}
    (h : t.restore coords w n tokens comments = .error e) : ∃ a n, e = t.mismatch coords a n := by
  unfold restore at h
  split at h
  · rcases bind_eq_error h with hshift | ⟨w1, -, h⟩
    · exact shiftTargets_eq_error hshift
    rcases bind_eq_error h with hattach | ⟨w2, -, h⟩
    · exact attachTargets_eq_error hattach
    · cases h
  · cases h
    exact ⟨_, _, rfl⟩

end Task

/-- Takes the items in the wrapper of a task from a cursor, and keeps those in its fragments. -/
def Task.gather {α : Type} [Ranged α] (coords : Coordinates) (items : Cursor α × List α)
    (t : Task) : Cursor α × List α :=
  ((items.1.takeWithin t.range).2, items.2 ++ t.relocate coords (items.1.takeWithin t.range).1)

namespace Restorer

variable {s s' : Restorer}

/-- The state in which the walk over a parsed script starts. -/
def start (v : VirtualScript) (h : Arena) (scopes : ScopeGraph) (tokens : List Token)
    (comments : List Comment) : Restorer :=
  ⟨⟨h, scopes, []⟩, v.tasks, .ofList tokens, .ofList comments, [], []⟩

/-- The tokens not taken yet and those restored. -/
def tokenState (s : Restorer) : Cursor Token × List Token := (s.tokens, s.restoredTokens)

def commentState (s : Restorer) : Cursor Comment × List Comment := (s.comments, s.restoredComments)

theorem finishTask_eq_ok (h : finishTask coords t n s = .ok s') :
    (∃ tokens tokens' comments comments',
      t.restore coords s.bench n tokens comments = .ok (s'.bench, tokens', comments')) ∧
    s'.tasks = s.tasks ∧ s'.tokenState = t.gather coords s.tokenState ∧
    s'.commentState = t.gather coords s.commentState := by
  obtain ⟨⟨bench, tokens, comments⟩, hrestore, h⟩ := bind_eq_ok h
  cases h
  obtain ⟨targets, w1, w2, -, -, -, -, rfl, rfl⟩ := Task.restore_eq_ok hrestore
  exact ⟨⟨_, _, _, _, hrestore⟩, rfl, rfl, rfl⟩

theorem mismatch_of_finishTask {e : Failure} (h : finishTask coords t n s = .error e) :
    ∃ a m, e = t.mismatch coords a m := by
  rcases bind_eq_error h with hrestore | ⟨_, -, hpure⟩
  · exact Task.restore_eq_error hrestore
  · cases hpure

theorem nextTask?_cases (s : Restorer) (r : Range) :
    (s.nextTask? r = (none, s.tasks) ∧ ∀ t ∈ s.tasks.head?, r.start < t.range.start) ∨
      ∃ t rest, s.tasks = t :: rest ∧ s.nextTask? r = (some t, rest) ∧ t.range.start ≤ r.start := by
  unfold nextTask?
  cases htasks : s.tasks with
  | nil => exact .inl ⟨rfl, by simp⟩
  | cons t rest =>
    dsimp only
    split
    · rename_i hle
      exact .inr ⟨t, rest, rfl, rfl, hle⟩
    · rename_i hlt
      exact .inl ⟨rfl, by simpa using hlt⟩

/-- At a node, the walk goes on to the children, and undoes the next task if it is for the node. -/
theorem walk_eq_ok (h : walk coords (fuel + 1) n s = .ok s') :
    (walkAll coords fuel (s.bench.arena.children n) s = .ok s' ∧
        ∀ t ∈ s.tasks.head?, (s.bench.arena.range n).start < t.range.start) ∨
      ∃ t rest s1, s.tasks = t :: rest ∧ t.range = s.bench.arena.range n ∧
        walkAll coords fuel (s.bench.arena.children n) { s with tasks := rest } = .ok s1 ∧
        finishTask coords t n s1 = .ok s' := by
  unfold walk at h
  dsimp only at h
  rcases nextTask?_cases s (s.bench.arena.range n) with ⟨hnext, hlater⟩ | ⟨t, rest, htasks, hnext,
    -⟩
  · rw [hnext] at h
    exact .inl ⟨h, hlater⟩
  · rw [hnext] at h
    dsimp only at h
    split at h
    case isTrue => cases h
    rename_i hrange
    obtain ⟨s1, hwalk, hfinish⟩ := bind_eq_ok h
    exact .inr ⟨t, rest, s1, htasks, Decidable.not_not.mp hrange, hwalk, hfinish⟩

end Restorer

/-- Tasks in the order of their starts. -/
def Task.Increasing (ts : List Task) : Prop :=
  ts.Pairwise fun t t' => t.range.start < t'.range.start

theorem Task.Increasing.lt_of_mem {t t' : Task} {ts : List Task} {start : Nat}
    (hts : Increasing (t :: ts))
    (hlt : start < t.range.start) (ht' : t' ∈ t :: ts) : start < t'.range.start := by
  rcases mem_cons.mp ht' with heq | hmem
  · rw [heq]
    exact hlt
  · exact Nat.lt_trans hlt ((pairwise_cons.mp hts).1 t' hmem)

namespace Arena

/-- The nodes of a script in pre-order, without the program. -/
def preorder (h : Arena) (program : NodeId) : List NodeId :=
  (h.children program).flatMap h.descendants

/-- The first of some nodes that starts at or after an offset. -/
def firstFrom? (h : Arena) (nodes : List NodeId) (start : Nat) : Option NodeId :=
  nodes.find? fun n => start ≤ (h.range n).start

/-- Gives tasks to nodes, both in their order. A node that starts at or after the next task takes
it, and has to have its range. Answers with the tasks and their nodes, and with the tasks that are
left. -/
def assign? (h : Arena) : List Task → List NodeId → Option (List (Task × NodeId) × List Task)
  | [], _ => some ([], [])
  | ts, [] => some ([], ts)
  | t :: ts, n :: ns =>
    if t.range.start ≤ (h.range n).start then
      if t.range = h.range n then (h.assign? ts ns).map fun q => ((t, n) :: q.1, q.2) else none
    else h.assign? (t :: ts) ns

variable {ts rest : List Task} {ps : List (Task × NodeId)}

@[simp] theorem assign?_no_tasks (h : Arena) (ns : List NodeId) :
    h.assign? [] ns = some ([], []) := by
  cases ns <;> rfl

@[simp] theorem assign?_no_nodes (h : Arena) (ts : List Task) :
    h.assign? ts [] = some ([], ts) := by
  cases ts <;> rfl

theorem assign?_cons_cons : h.assign? (t :: ts) (n :: ns) =
    if t.range.start ≤ (h.range n).start then
        if t.range = h.range n then (h.assign? ts ns).map fun q => ((t, n) :: q.1, q.2) else none
    else h.assign? (t :: ts) ns :=
  rfl

theorem assign?_skip (hlater : ∀ t ∈ ts.head?, (h.range n).start < t.range.start) :
    h.assign? ts (n :: ns) = h.assign? ts ns := by
  cases ts with
  | nil => simp
  | cons t ts =>
    have hlt := hlater t rfl
    rw [assign?_cons_cons, if_neg (Nat.not_le.mpr hlt)]

theorem assign?_take (hrange : t.range = h.range n) :
    h.assign? (t :: ts) (n :: ns) = (h.assign? ts ns).map fun q => ((t, n) :: q.1, q.2) := by
  simp [assign?_cons_cons, hrange]

/-- The nodes that come later get the tasks that are left. -/
theorem assign?_append (h : Arena) (ts : List Task) (ns ms : List NodeId) :
    h.assign? ts (ns ++ ms) = (h.assign? ts ns).bind fun p => (h.assign? p.2 ms).map
      fun q => (p.1 ++ q.1, q.2) := by
  induction ns generalizing ts with
  | nil => simp
  | cons n ns ih =>
    cases ts with
    | nil => simp
    | cons t ts =>
      rw [cons_append, assign?_cons_cons, assign?_cons_cons]
      split
      · split
        · rw [ih]
          cases h.assign? ts ns with
          | none => rfl
          | some p => simp [Function.comp_def]
        · rfl
      · exact ih (t :: ts)

theorem firstFrom?_of_lt {start : Nat} (hlt : (h.range n).start < start) :
    h.firstFrom? (n :: ns) start = h.firstFrom? ns start := by
  simp [firstFrom?, Nat.not_le.mpr hlt]

theorem firstFrom?_of_le {start : Nat} (hle : start ≤ (h.range n).start) :
    h.firstFrom? (n :: ns) start = some n := by
  simp [firstFrom?, hle]

/-- Tasks went to nodes of their ranges, and some are left. -/
structure Assigned (h : Arena) (ts : List Task) (ns : List NodeId) (ps : List (Task × NodeId))
    (rest : List Task) : Prop where
  tasks : ts = ps.map Prod.fst ++ rest
  nodes : (ps.map Prod.snd).Sublist ns
  range : ∀ p ∈ ps, h.range p.2 = p.1.range
  first : Task.Increasing ts → ∀ p ∈ ps, h.firstFrom? ns p.1.range.start = some p.2

theorem Assigned.skip (hlater : (h.range n).start < t.range.start)
    (ha : h.Assigned (t :: ts) ns ps rest) : h.Assigned (t :: ts) (n :: ns) ps rest := by
  refine ⟨ha.tasks, ha.nodes.cons n, ha.range, fun hts p hp => ?_⟩
  have hmem : p.1 ∈ t :: ts := by
    rw [ha.tasks]
    exact mem_append_left _ (mem_map_of_mem hp)
  rw [firstFrom?_of_lt (hts.lt_of_mem hlater hmem)]
  exact ha.first hts p hp

theorem Assigned.take (hrange : t.range = h.range n) (ha : h.Assigned ts ns ps rest) :
    h.Assigned (t :: ts) (n :: ns) ((t, n) :: ps) rest := by
  refine ⟨by simp [ha.tasks], ha.nodes.cons_cons n, forall_mem_cons.mpr ⟨hrange.symm, ha.range⟩,
    fun hts => ?_⟩
  obtain ⟨hlater, hts⟩ := pairwise_cons.mp hts
  refine forall_mem_cons.mpr ⟨firstFrom?_of_le (Nat.le_of_eq (congrArg Range.start hrange)),
    fun p hp => ?_⟩
  have hmem : p.1 ∈ ts := by
    rw [ha.tasks]
    exact mem_append_left _ (mem_map_of_mem hp)
  have hlt := hlater p.1 hmem
  rw [hrange] at hlt
  rw [firstFrom?_of_lt hlt]
  exact ha.first hts p hp

theorem assigned_of_assign? (hok : h.assign? ts ns = some (ps, rest)) :
    h.Assigned ts ns ps rest := by
  induction ns generalizing ts ps with
  | nil =>
    rw [assign?_no_nodes] at hok
    cases hok
    constructor <;> simp
  | cons n ns ih =>
    cases ts with
    | nil =>
      cases hok
      constructor <;> simp
    | cons t ts =>
      rw [assign?_cons_cons] at hok
      split at hok
      case isFalse hstart => exact (ih hok).skip (Nat.not_le.mp hstart)
      split at hok
      case isFalse => cases hok
      rename_i hrange
      obtain ⟨⟨qs, rest'⟩, hqs, heq⟩ := Option.map_eq_some_iff.mp hok
      cases heq
      exact (ih hqs).take hrange

/-- Tasks whose first nodes have their ranges all go to nodes. -/
theorem assign?_of_first (hts : Task.Increasing ts)
    (hfirst : ∀ t ∈ ts, ∃ n, h.firstFrom? ns t.range.start = some n ∧ h.range n = t.range) :
    ∃ ps, h.assign? ts ns = some (ps, []) := by
  induction ns generalizing ts with
  | nil =>
    cases ts with
    | nil => exact ⟨[], rfl⟩
    | cons t ts =>
      obtain ⟨n, hn, -⟩ := hfirst t mem_cons_self
      cases hn
  | cons n ns ih =>
    cases ts with
    | nil => exact ⟨[], rfl⟩
    | cons t ts =>
      obtain ⟨hlater, hts'⟩ := pairwise_cons.mp hts
      obtain ⟨m, hm, hrange⟩ := hfirst t mem_cons_self
      by_cases hstart : t.range.start ≤ (h.range n).start
      · rw [firstFrom?_of_le hstart, Option.some.injEq] at hm
        subst hm
        obtain ⟨ps, hps⟩ := ih hts' fun t' ht' => by
          have hlt := hlater t' ht'
          rw [← hrange] at hlt
          rw [← firstFrom?_of_lt hlt]
          exact hfirst t' (mem_cons_of_mem _ ht')
        exact ⟨(t, n) :: ps, by simp [assign?_take hrange.symm, hps]⟩
      · have hlt := Nat.not_le.mp hstart
        rw [assign?_cons_cons, if_neg hstart]
        refine ih hts fun t' ht' => ?_
        rw [← firstFrom?_of_lt (hts.lt_of_mem hlt ht')]
        exact hfirst t' ht'

/-! Pre-order. -/

namespace Rooted

variable (ht : h.Rooted program)

include ht

theorem pairwise_flatMap (hx : h.Below program x) {fuel : Nat}
    (hpairwise : ∀ c, h.Lists x c → (h.descendantsWithin fuel c).Pairwise fun y z => ¬ h.Below z
      y) :
    ((h.children x).flatMap (h.descendantsWithin fuel)).Pairwise fun y z => ¬ h.Below z y := by
  refine List.pairwise_flatMap.mpr ⟨hpairwise, ?_⟩
  refine (ht.nodup x hx).imp_of_mem fun {c c'} hc hc' hne y hy z hz hzy => hne ?_
  exact ht.eq_of_below_siblings hx hc hc' (below_of_mem_within hy)
    ((below_of_mem_within hz).trans hzy)

theorem pairwise_descendantsWithin (hx : h.Below program x) (fuel : Nat) :
    (h.descendantsWithin fuel x).Pairwise fun y z => ¬ h.Below z y := by
  induction fuel generalizing x with
  | zero => exact .nil
  | succ fuel ih =>
    rw [descendantsWithin, pairwise_cons]
    refine ⟨fun y hmem hyx => ?_, ht.pairwise_flatMap hx fun c hc => ih (hx.tail hc)⟩
    obtain ⟨c, hc, hcy⟩ := mem_flatMap.mp hmem
    exact ht.not_below_parent hx hc ((below_of_mem_within hcy).trans hyx)

/-- No node comes before one that it is below. -/
theorem pairwise_preorder : (h.preorder program).Pairwise fun y z => ¬ h.Below z y :=
  ht.pairwise_flatMap .refl fun _ hc => ht.pairwise_descendantsWithin (.single hc) h.size

theorem nodup_preorder : (h.preorder program).Nodup :=
  ht.pairwise_preorder.imp fun {y z} hbelow (heq : y = z) => hbelow (heq ▸ .refl)

theorem mem_preorder : x ∈ h.preorder program ↔ h.Below program x ∧ x ≠ program := by
  rw [preorder, mem_flatMap]
  constructor
  · intro hx
    obtain ⟨c, hc, hcx⟩ := hx
    have hbelow := below_of_mem_within hcx
    refine ⟨.head hc hbelow, fun heq => ?_⟩
    rw [heq] at hbelow
    exact ht.not_below_parent .refl hc hbelow
  · intro ⟨hx, hne⟩
    obtain heq | ⟨c, hc, hcx⟩ := hx.cases_head
    · exact absurd heq.symm hne
    · exact ⟨c, hc, (ht.mem_descendants rfl (fun _ _ => rfl) (.single hc)).mpr hcx⟩

end Rooted

/-! What undoing tasks leaves alone. -/

/-- The nodes of a script after some tasks were undone: statements were taken out, nothing was put
in. -/
structure Pruned (h a : Arena) (program : NodeId) : Prop where
  keeps : h.Keeps a
  lists : ∀ x c, h.Below program x → a.Lists x c → h.Lists x c

/-- Nodes of a script are changed below `ns` only, and in what lists one of `ns`. -/
structure Confined (h : Arena) (program : NodeId) (ns : List NodeId) (a a' : Arena) : Prop where
  range : ∀ y, h.Below program y → (∀ n ∈ ns, ¬ h.Below n y) → a'.range y = a.range y
  kind : ∀ y, h.Below program y → (∀ n ∈ ns, ¬ h.Below n y ∧ ¬ h.Lists y n) → a'.kind y = a.kind y

/-- The nodes at and below `n` are as they were parsed. -/
def Untouched (h a : Arena) (n : NodeId) : Prop :=
  ∀ y, h.Below n y → a.kind y = h.kind y ∧ a.range y = h.range y

variable {a a1 a' : Arena} {y c : NodeId} {ms : List NodeId}

theorem Pruned.refl (h : Arena) (program : NodeId) : h.Pruned h program :=
  ⟨.refl h, fun _ _ _ hc => hc⟩

theorem Pruned.below (hp : h.Pruned a program) (hx : h.Below program x) (hy : a.Below x y) :
    h.Below x y :=
  below_of_lists (fun _ _ hz hc => hp.lists _ _ (hx.trans hz) hc) hy

namespace Confined

theorem refl (h : Arena) (program : NodeId) (ns : List NodeId) (a : Arena) :
    h.Confined program ns a a :=
  ⟨fun _ _ _ => rfl, fun _ _ _ => rfl⟩

theorem append (hc : h.Confined program ns a a1) (hc' : h.Confined program ms a1 a') :
    h.Confined program (ns ++ ms) a a' := by
  refine ⟨fun y hy hout => ?_, fun y hy hout => ?_⟩
  · rw [forall_mem_append] at hout
    exact (hc'.range y hy hout.2).trans (hc.range y hy hout.1)
  · rw [forall_mem_append] at hout
    exact (hc'.kind y hy hout.2).trans (hc.kind y hy hout.1)

theorem mono (hc : h.Confined program ns a a') (hsub : ns ⊆ ms) : h.Confined program ms a a' :=
  ⟨fun y hy hout => hc.range y hy fun n hn => hout n (hsub hn),
    fun y hy hout => hc.kind y hy fun n hn => hout n (hsub hn)⟩

/-- Below the children of a node is below the node. -/
theorem parent (ht : h.Rooted program) (hn : h.Below program n)
    (hc : h.Confined program (h.children n) a a') : h.Confined program [n] a a' := by
  refine ⟨fun y hy hout => ?_, fun y hy hout => ?_⟩
  · rw [forall_mem_singleton] at hout
    exact hc.range y hy fun c hmem hcy => hout (.head hmem hcy)
  · rw [forall_mem_singleton] at hout
    refine hc.kind y hy fun c hmem => ⟨fun hcy => hout.1 (.head hmem hcy), fun hlists => hout.1 ?_⟩
    -- A child has one parent.
    have hparent := ht.parent y c hy hlists
    rw [ht.parent n c hn hmem, Option.some.injEq] at hparent
    rw [hparent]
    exact .refl

/-- What is below a node stays when its siblings are changed. -/
theorem untouched {n' : NodeId} (ht : h.Rooted program) (hx : h.Below program x) (hn : h.Lists x n)
    (hn' : h.Lists x n') (hne : n ≠ n') (hc : h.Confined program [n] a a') (hu : h.Untouched a n') :
    h.Untouched a' n' := by
  intro y hy
  have hbelow : h.Below program y := (hx.tail hn').trans hy
  have hout : ¬ h.Below n y := fun hny => hne (ht.eq_of_below_siblings hx hn hn' hny hy)
  have hlists : ¬ h.Lists y n := by
    intro hlists
    have hparent := ht.parent y n hbelow hlists
    rw [ht.parent x n hx hn, Option.some.injEq] at hparent
    rw [← hparent] at hy
    exact ht.not_below_parent hx hn' hy
  obtain ⟨hkind, hrange⟩ := hu y hy
  rw [hc.kind y hbelow (by simpa using ⟨hout, hlists⟩), hc.range y hbelow (by simpa using hout)]
  exact ⟨hkind, hrange⟩

end Confined

theorem Untouched.child (hu : h.Untouched a n) (hc : h.Lists n c) : h.Untouched a c :=
  fun y hy => hu y (.head hc hy)

theorem Untouched.children_eq (hu : h.Untouched a n) : a.children n = h.children n := by
  unfold children
  rw [(hu n .refl).1]
  split
  · rename_i quasis expressions hn
    have hrange : ∀ c ∈ quasis ++ expressions, a.range c = h.range c := by
      intro c hc
      refine (hu c (.single ?_)).2
      unfold Lists children
      rw [hn]
      exact mem_mergeSort.mpr hc
    have hsort := @map_mergeSort _ _ (fun x y => (a.range x).start ≤ (a.range y).start)
      (fun x y => (h.range x).start ≤ (h.range y).start) id (quasis ++ expressions) fun x hx y hy => by
        show decide ((a.range x).start ≤ _) = decide ((h.range x).start ≤ (h.range y).start)
        rw [hrange x hx, hrange y hy]
    simpa using hsort
  · rfl

/-! Taking a statement out. -/

theorem kind_detach_of_not_lists (hy : ¬ a.Lists y n) : (a.detach n).2.kind y = a.kind y := by
  unfold detach
  split
  · rw [kind_removeChild]
    split
    · rename_i heq
      rw [← heq.1]
      exact Kind.drop_of_notMem fun hmem => hy (mem_children.mpr hmem)
    · rfl
  · rfl

theorem lists_of_detach (hc : (a.detach n).2.Lists y c) : a.Lists y c := by
  unfold detach at hc
  split at hc
  · rw [Lists, mem_children, kind_removeChild] at hc
    rw [Lists, mem_children]
    split at hc
    · rename_i heq
      rw [heq.1]
      exact (Kind.childIds_drop_sublist ..).subset hc
    · exact hc
  · exact hc

end Arena

/-! Undoing one task. -/

theorem Kind.isSome_attach? (k : Kind) (field : SlotField) (c c' : NodeId) :
    (k.attach? c field).isSome = (k.attach? c' field).isSome := by
  cases field <;> cases k <;> rfl

/-- No node of the script has a slot for a fragment of the task. -/
def Task.Foreign (t : Task) (h : Arena) (program : NodeId) : Prop :=
  ∀ f ∈ t.fragments, h.Below program f.owner → ¬ (h.kind f.owner).Accepts f.field

namespace Workbench

variable {w w' : Workbench} {ps : List (Fragment × NodeId)}

/-- Slots of script nodes are never filled. -/
theorem attachTargets_foreign (ht : h.Rooted program) (hkeeps : h.Keeps w.arena)
    (hforeign : ∀ p ∈ ps, h.Below program p.1.owner → ¬ (h.kind p.1.owner).Accepts p.1.field)
    (hok : t.attachTargets coords ps w = .ok w') :
    h.Keeps w'.arena ∧ (∀ x, w'.arena.range x = w.arena.range x) ∧
      ∀ x, h.Below program x → w'.arena.kind x = w.arena.kind x := by
  induction ps generalizing w with
  | nil =>
    cases hok
    exact ⟨hkeeps, fun _ => rfl, fun _ _ => rfl⟩
  | cons p ps ih =>
    rw [forall_mem_cons] at hforeign
    unfold Task.attachTargets at hok
    split at hok
    case h_2 => cases hok
    rename_i a hattach
    have hkeeps' := hkeeps.trans (Arena.Keeps.attach p.1.owner p.2 p.1.field)
    rw [hattach] at hkeeps'
    obtain ⟨k, hk, rfl⟩ := attach_eq_true hattach
    obtain ⟨hkeeps', hrange, hkind⟩ := ih hkeeps' hforeign.2 hok
    refine ⟨hkeeps', fun x => by simp [hrange x], fun x hx => ?_⟩
    have hne : x ≠ p.1.owner := by
      intro heq
      rw [heq] at hx
      apply hforeign.1 hx
      rw [← Kind.accepts_blank, ← hkeeps.blank _ (ht.bounded _ hx), Kind.accepts_blank]
      intro child
      rw [Kind.isSome_attach? _ _ child p.2, hk]
      rfl
    rw [hkind x hx, kind_setParent, kind_setKind_ne hne]

end Workbench

namespace Restorer

variable {s s1 s' : Restorer}

/-- The queue of tasks has no part in undoing one. -/
theorem finishTask_tasks (hok : finishTask coords t n s = .ok s') (ts : List Task) :
    finishTask coords t n { s with tasks := ts } = .ok { s' with tasks := ts } := by
  unfold finishTask at hok ⊢
  dsimp only at hok ⊢
  obtain ⟨⟨bench, tokens, comments⟩, hrestore, hok⟩ := bind_eq_ok hok
  cases hok
  rw [hrestore]
  rfl

/-- Undoing a task at a statement changes nodes of the script below the statement and in its parent
only. -/
theorem finishTask_confined (ht : h.Rooted program) (hforeign : t.Foreign h program)
    (hn : h.Below program n)
    (hpruned : h.Pruned s.bench.arena program) (hok : finishTask coords t n s = .ok s') :
    h.Pruned s'.bench.arena program ∧ h.Confined program [n] s.bench.arena s'.bench.arena := by
  obtain ⟨⟨_, _, _, _, hrestore⟩, -⟩ := finishTask_eq_ok hok
  obtain ⟨targets, w1, w2, htgts, hshift, hattach, hbench, -⟩ := Task.restore_eq_ok hrestore
  have htarget : ∀ p ∈ t.fragments.zip targets, h.Below n p.2 := by
    intro p hp
    obtain ⟨c, hc, hpath⟩ := (Task.targets?_eq_some.mp htgts).within (of_mem_zip hp).2
    exact hpruned.below hn (.head hc (below_of_plain hpath))
  obtain ⟨hsize1, -, hkind1, hrange1⟩ := Workbench.shiftTargets_still hshift
  have hkeeps1 : h.Keeps w1.arena := hpruned.keeps.trans (.of_kind hsize1 hkind1)
  obtain ⟨hkeeps, hrange2, hkind2⟩ := Workbench.attachTargets_foreign
    (w := { w1 with scopes := t.reconcile w1.arena n targets w1.scopes }) ht hkeeps1
    (fun p hp => hforeign p.1 (of_mem_zip hp).1) hattach
  have hkind : ∀ y, h.Below program y → w2.arena.kind y = s.bench.arena.kind y := fun y hy =>
    (hkind2 y hy).trans (hkind1 y)
  rw [hbench]
  refine ⟨⟨hkeeps.trans (.detach n), fun x c hx hc => ?_⟩,
    ⟨fun y hy hout => ?_, fun y hy hout => ?_⟩⟩
  · have hlists := lists_of_detach hc
    rw [lists_congr (hkind x hx)] at hlists
    exact hpruned.lists x c hx hlists
  · rw [forall_mem_singleton] at hout
    rw [(Arena.Relinked.detach _).range, hrange2]
    refine hrange1 y fun p hp hbelow => hout ?_
    have hp := htarget p hp
    exact hp.trans (hpruned.below (hn.trans hp) hbelow)
  · rw [forall_mem_singleton] at hout
    rw [kind_detach_of_not_lists, hkind y hy]
    intro hlists
    rw [lists_congr (hkind y hy)] at hlists
    exact hout.2 (hpruned.lists y n hy hlists)

/-! The walk. -/

/-- Undoes tasks at their nodes, in order. -/
def undoAll (coords : Coordinates) (ps : List (Task × NodeId)) (s : Restorer) :
    Except Failure Restorer :=
  ps.foldlM (fun s p => finishTask coords p.1 p.2 s) s

/-- The walk over the sub-trees `ns` undid the tasks `ps` at their nodes, what is inside of a node
before the node. -/
structure Applied (coords : Coordinates) (h : Arena) (program : NodeId) (ns : List NodeId)
    (ps : List (Task × NodeId)) (s s' : Restorer) : Prop where
  run : ∀ ts, undoAll coords ps { s with tasks := ts } = .ok { s' with tasks := ts }
  order : ps.Pairwise fun p q => ¬ h.Below p.2 q.2
  below : ∀ p ∈ ps, ∃ n ∈ ns, h.Below n p.2
  pruned : h.Pruned s'.bench.arena program
  confined : h.Confined program ns s.bench.arena s'.bench.arena

namespace Applied

variable {ps qs : List (Task × NodeId)}

theorem refl (coords : Coordinates) (ns : List NodeId) (hpruned : h.Pruned s.bench.arena program) :
    Applied coords h program ns [] s s :=
  ⟨fun _ => rfl, .nil, by simp, hpruned, .refl ..⟩

theorem parent (ht : h.Rooted program) (hn : h.Below program n)
    (ha : Applied coords h program (h.children n) ps s s') :
    Applied coords h program [n] ps s s' := by
  refine ⟨ha.run, ha.order, fun p hp => ?_, ha.pruned, ha.confined.parent ht hn⟩
  obtain ⟨c, hc, hbelow⟩ := ha.below p hp
  exact ⟨n, mem_singleton_self n, .head hc hbelow⟩

/-- A task at a node comes after those inside of the node. -/
theorem finish (ht : h.Rooted program) (hn : h.Below program n) (hforeign : t.Foreign h program)
    (ha : Applied coords h program (h.children n) ps s s1)
    (hok : finishTask coords t n s1 = .ok s') :
    Applied coords h program [n] (ps ++ [(t, n)]) s s' := by
  obtain ⟨hpruned, hconfined⟩ := finishTask_confined ht hforeign hn ha.pruned hok
  have hup := ha.parent ht hn
  constructor
  case run =>
    intro ts
    rw [undoAll, foldlM_append, ← undoAll, ha.run ts]
    simp only [foldlM_cons, foldlM_nil, bind_pure]
    exact finishTask_tasks hok ts
  case order =>
    refine pairwise_append.mpr ⟨ha.order, pairwise_singleton _ _, fun p hp q hq hbelow => ?_⟩
    rw [mem_singleton.mp hq] at hbelow
    obtain ⟨c, hc, hcp⟩ := ha.below p hp
    exact ht.not_below_parent hn hc (hcp.trans hbelow)
  case below =>
    refine forall_mem_append.mpr ⟨hup.below, forall_mem_singleton.mpr ?_⟩
    exact ⟨n, mem_singleton_self n, .refl⟩
  case pruned => exact hpruned
  case confined => exact (hup.confined.append hconfined).mono (by simp)

/-- Tasks in different sub-trees are not inside of each other. -/
theorem sibling (ht : h.Rooted program) (hx : h.Below program x) (hn : h.Lists x n)
    (hns : ∀ m ∈ ns, h.Lists x m) (hout : n ∉ ns) (ha : Applied coords h program [n] ps s s1)
    (ha' : Applied coords h program ns qs s1 s') :
    Applied coords h program (n :: ns) (ps ++ qs) s s' := by
  have hbelow : ∀ p ∈ ps, h.Below n p.2 := by simpa using ha.below
  constructor
  case run =>
    intro ts
    rw [undoAll, foldlM_append, ← undoAll, ha.run ts]
    exact ha'.run ts
  case order =>
    refine pairwise_append.mpr ⟨ha.order, ha'.order, fun p hp q hq hpq => ?_⟩
    obtain ⟨m, hm, hmq⟩ := ha'.below q hq
    rw [ht.eq_of_below_siblings hx hn (hns m hm) ((hbelow p hp).trans hpq) hmq] at hout
    exact hout hm
  case below =>
    refine forall_mem_append.mpr ⟨fun p hp => ⟨n, mem_cons_self .., hbelow p hp⟩, fun q hq => ?_⟩
    obtain ⟨m, hm, hmq⟩ := ha'.below q hq
    exact ⟨m, mem_cons_of_mem _ hm, hmq⟩
  case pruned => exact ha'.pruned
  case confined => exact ha.confined.append ha'.confined

end Applied

/-- The walk over the sub-trees `ns` is about to start. -/
structure Ready (h : Arena) (program : NodeId) (ns : List NodeId) (s : Restorer) : Prop where
  pruned : h.Pruned s.bench.arena program
  untouched : ∀ n ∈ ns, h.Untouched s.bench.arena n
  foreign : ∀ t ∈ s.tasks, t.Foreign h program

/-- What the walk over the sub-trees `ns` comes to, whose nodes in pre-order are `nodes`: the tasks
were undone at the nodes that they go to, or the failure is not one of matching, or the tasks do not
all meet their nodes. -/
def Agrees (coords : Coordinates) (h : Arena) (program : NodeId) (ns nodes : List NodeId)
    (s : Restorer) : Except Failure Restorer → Prop
  | .ok s' => ∃ ps applied, h.assign? s.tasks nodes = some (ps, s'.tasks) ∧ applied.Perm ps ∧
      Applied coords h program ns applied s s'
  | .error e => e.isMatching = true → h.assign? s.tasks nodes = none

variable {nodes : List NodeId}

theorem Agrees.parent (ht : h.Rooted program) (hn : h.Below program n)
    (hlater : ∀ t ∈ s.tasks.head?, (h.range n).start < t.range.start) {r : Except Failure Restorer}
    (hr : Agrees coords h program (h.children n) nodes s r) :
    Agrees coords h program [n] (n :: nodes) s r := by
  have hskip : h.assign? s.tasks (n :: nodes) = h.assign? s.tasks nodes := assign?_skip hlater
  cases r with
  | error e =>
    intro hmatching
    rw [hskip]
    exact hr hmatching
  | ok s' =>
    obtain ⟨ps, applied, hassign, hperm, happlied⟩ := hr
    exact ⟨ps, applied, hskip.trans hassign, hperm, happlied.parent ht hn⟩

theorem Ready.first (hs : Ready h program (n :: ns) s) : Ready h program [n] s :=
  ⟨hs.pruned, forall_mem_singleton.mpr (hs.untouched n mem_cons_self), hs.foreign⟩

/-- The children are those of the parse, whatever tasks are still to come. -/
theorem Ready.inside {ts : List Task} (hs : Ready h program [n] s) (hts : ts ⊆ s.tasks) :
    Ready h program (h.children n) { s with tasks := ts } :=
  ⟨hs.pruned, fun _ hc => (hs.untouched n (mem_singleton_self n)).child hc,
    fun t hmem => hs.foreign t (hts hmem)⟩

/-- After the walk over a sub-tree, the sub-trees beside it are as they were parsed. -/
theorem Ready.next (ht : h.Rooted program) (hx : h.Below program x) (hn : h.Lists x n)
    (hns : ∀ m ∈ ns, h.Lists x m) (hout : n ∉ ns) (hs : Ready h program (n :: ns) s)
    (hok : Agrees coords h program [n] nodes s (.ok s1)) : Ready h program ns s1 := by
  obtain ⟨ps, applied, hassign, -, happlied⟩ := hok
  refine ⟨happlied.pruned, fun m hm => ?_, fun t hmem => hs.foreign t ?_⟩
  · have hne : n ≠ m := fun heq => hout (heq ▸ hm)
    exact happlied.confined.untouched ht hx hn (hns m hm) hne
      (hs.untouched m (mem_cons_of_mem _ hm))
  · rw [(assigned_of_assign? hassign).tasks]
    exact mem_append_right _ hmem

theorem walkAll_agrees_of (ht : h.Rooted program)
    (hwalk : ∀ {n s}, h.Below program n → Ready h program [n] s →
      Agrees coords h program [n] (h.descendantsWithin fuel n) s (walk coords fuel n s))
    (hx : h.Below program x) (hns : ∀ n ∈ ns, h.Lists x n) (hnodup : ns.Nodup)
    (hs : Ready h program ns s) :
    Agrees coords h program ns (ns.flatMap (h.descendantsWithin fuel)) s
      (walkAll coords fuel ns s) := by
  induction ns generalizing s with
  | nil =>
    rw [walkAll]
    exact ⟨[], [], assign?_no_nodes .., .refl _, .refl coords [] hs.pruned⟩
  | cons n ns ih =>
    rw [forall_mem_cons] at hns
    rw [nodup_cons] at hnodup
    have hfirst := hwalk (hx.tail hns.1) hs.first
    rw [walkAll, flatMap_cons]
    cases hn : walk coords fuel n s with
    | error e =>
      rw [hn] at hfirst
      intro hmatching
      rw [assign?_append, hfirst hmatching]
      rfl
    | ok s1 =>
      rw [hn] at hfirst
      have hrest := ih hns.2 hnodup.2 (hs.next ht hx hns.1 hns.2 hnodup.1 hfirst)
      obtain ⟨ps, applied, hassign, hperm, happlied⟩ := hfirst
      show Agrees coords h program (n :: ns) _ s (walkAll coords fuel ns s1)
      cases hns' : walkAll coords fuel ns s1 with
      | error e =>
        rw [hns'] at hrest
        intro hmatching
        simp [assign?_append, hassign, hrest hmatching]
      | ok s' =>
        rw [hns'] at hrest
        obtain ⟨qs, applied', hassign', hperm', happlied'⟩ := hrest
        refine ⟨ps ++ qs, applied ++ applied', ?_, hperm.append hperm', ?_⟩
        · simp [assign?_append, hassign, hassign']
        · exact happlied.sibling ht hx hns.1 hns.2 hnodup.1 happlied'

theorem walk_agrees (ht : h.Rooted program) (hn : h.Below program n) (hs : Ready h program [n] s) :
    Agrees coords h program [n] (h.descendantsWithin fuel n) s (walk coords fuel n s) := by
  induction fuel generalizing n s with
  | zero =>
    rw [walk]
    exact ⟨[], [], assign?_no_nodes .., .refl _, .refl coords [n] hs.pruned⟩
  | succ fuel ih =>
    have hu := hs.untouched n (mem_singleton_self n)
    have hinside : ∀ {ts : List Task}, ts ⊆ s.tasks →
        Agrees coords h program (h.children n) ((h.children n).flatMap (h.descendantsWithin fuel))
          { s with tasks := ts } (walkAll coords fuel (h.children n) { s with tasks := ts }) := fun hts =>
      walkAll_agrees_of ht ih hn (fun c hc => hc) (ht.nodup n hn) (hs.inside hts)
    rw [walk, descendantsWithin]
    dsimp only
    rw [(hu n .refl).2]
    rcases nextTask?_cases s (h.range n) with ⟨hnext, hlater⟩ | ⟨t, rest, htasks, hnext, hstart⟩
    · rw [hnext]
      rw [hu.children_eq]
      exact (hinside (List.Subset.refl _)).parent ht hn hlater
    · rw [hnext]
      dsimp only
      split
      case isTrue hrange =>
        intro _
        rw [htasks]
        simp [assign?_cons_cons, hstart, hrange]
      case isFalse hrange =>
        have hrange := Decidable.not_not.mp hrange
        have hinside := @hinside rest (by simp [htasks])
        rw [hu.children_eq]
        cases hwalk : walkAll coords fuel (h.children n) { s with tasks := rest } with
        | error e =>
          rw [hwalk] at hinside
          intro hmatching
          rw [htasks, assign?_take hrange, hinside hmatching]
          rfl
        | ok s1 =>
          rw [hwalk] at hinside
          obtain ⟨ps, applied, hassign, hperm, happlied⟩ := hinside
          show Agrees coords h program [n] _ s (finishTask coords t n s1)
          cases hfinish : finishTask coords t n s1 with
          | error e =>
            obtain ⟨a, m, rfl⟩ := mismatch_of_finishTask hfinish
            intro hmatching
            cases hmatching
          | ok s' =>
            have hforeign := hs.foreign t (by simp [htasks])
            refine ⟨(t, n) :: ps, applied ++ [(t, n)], ?_, ?_, ?_⟩
            · rw [htasks, assign?_take hrange, (finishTask_eq_ok hfinish).2.1]
              simp [hassign]
            · exact (perm_append_singleton _ _).trans (hperm.cons _)
            · have hdone := happlied.finish ht hn hforeign hfinish
              exact ⟨hdone.run, hdone.order, hdone.below, hdone.pruned, hdone.confined⟩

theorem start_agrees {h : Arena} {program : NodeId} {v : VirtualScript} (ht : h.Rooted program)
    (hforeign : ∀ t ∈ v.tasks, t.Foreign h program) (coords : Coordinates) (scopes : ScopeGraph)
    (tokens : List Token) (comments : List Comment) :
    Agrees coords h program (h.children program) (h.preorder program)
      (.start v h scopes tokens comments)
      (walkAll coords h.size (h.children program) (.start v h scopes tokens comments)) :=
  walkAll_agrees_of ht (walk_agrees ht) .refl (fun _ hc => hc) (ht.nodup program .refl)
    ⟨.refl h program, fun _ _ _ _ => ⟨rfl, rfl⟩, hforeign⟩

end Restorer

end Loom
