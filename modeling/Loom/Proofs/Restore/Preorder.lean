import Loom.Proofs.Cursor
import Loom.Proofs.Restore.Matching
import Loom.Proofs.Tree.Depth

/-!
The listing of a sub-tree in pre-order.

The listing goes down as deep as the arena is large, and where no node is below itself that is deep
enough. So it is the one that a stack of nodes gives, and in a tree the one in which the walk over a
parsed script enters the nodes.
-/

open List

namespace Loom

open Relation Sample

namespace Arena

/-- Children are nodes of the arena, and no node is below itself. -/
structure Acyclic (a : Arena) : Prop where
  bounded : ∀ x c, a.Lists x c → c < a.size
  irrefl : ∀ x, ¬ TransGen a.Lists x x

/-- A listing under way: the nodes on the stack, the top one last, and the nodes listed so far. -/
structure Listing where
  stack : List NodeId
  listed : List NodeId

/-- Lists the node on top of the stack and puts its children in its place, the first one on top. -/
def next? (a : Arena) (l : Listing) : Option Listing :=
  l.stack.getLast?.map fun x => ⟨l.stack.dropLast ++ (a.children x).reverse, l.listed ++ [x]⟩

/-- One listing comes after the other, some turns later. -/
def LeadsTo (a : Arena) : Listing → Listing → Prop := ReflTransGen fun l l' => a.next? l = some l'

namespace Acyclic

variable {a : Arena} {x c : NodeId} {fuel fuel' : Nat} {stack listed cs : List NodeId}

theorem of_rank (rank : NodeId → Nat)
    (h : ∀ x < a.size, ∀ c ∈ a.children x, c < a.size ∧ rank c < rank x) : a.Acyclic := by
  have hlists : ∀ x c, a.Lists x c → c < a.size ∧ rank c < rank x := fun x c hc =>
    h x (lt_size_of_mem_childIds (mem_children.mp hc)) c hc
  have hless : ∀ {x y}, TransGen a.Lists x y → rank y < rank x := fun hxy => by
    induction hxy with
    | single hc => exact (hlists _ _ hc).2
    | tail _ hc ih => exact (hlists _ _ hc).2.trans ih
  exact ⟨fun x c hc => (hlists x c hc).1, fun x hx => lt_irrefl _ (hless hx)⟩

theorem reachCount_child (ha : a.Acyclic) (hc : a.Lists x c) :
    reachCount a.Lists a.size c < reachCount a.Lists a.size x :=
  reachCount_lt (ha.irrefl c) hc (ha.bounded x c hc)

/-- A listing that can go deep enough does not depend on how deep it could go. -/
theorem descendantsWithin_eq (ha : a.Acyclic) (hfuel : reachCount a.Lists a.size x < fuel)
    (hfuel' : reachCount a.Lists a.size x < fuel') :
    a.descendantsWithin fuel x = a.descendantsWithin fuel' x := by
  induction fuel generalizing x fuel' with
  | zero => exact absurd hfuel (Nat.not_lt_zero _)
  | succ fuel ih =>
    obtain ⟨fuel', rfl⟩ := Nat.exists_eq_succ_of_ne_zero (Nat.ne_zero_of_lt hfuel')
    refine congrArg (x :: ·) (flatMap_congr fun c hc => ?_)
    have hless := ha.reachCount_child hc
    exact ih (by omega) (by omega)

theorem descendants_eq (ha : a.Acyclic) (hx : x < a.size) :
    a.descendants x = x :: (a.children x).flatMap a.descendants := by
  have hcount := reachCount_lt_size (ha.irrefl x) hx
  obtain ⟨fuel, hfuel⟩ := Nat.exists_eq_succ_of_ne_zero (Nat.ne_zero_of_lt hx)
  unfold descendants
  nth_rewrite 1 [hfuel]
  refine congrArg (x :: ·) (flatMap_congr fun c hc => ?_)
  have hless := ha.reachCount_child hc
  exact ha.descendantsWithin_eq (by omega) (by omega)

/-- Children that are listed one after the other leave what was on the stack before them. -/
theorem leadsTo_children
    (hlist : ∀ c ∈ cs, ∀ stack listed, a.LeadsTo ⟨stack ++ [c], listed⟩
      ⟨stack, listed ++ a.descendants c⟩) :
    a.LeadsTo ⟨stack ++ cs.reverse, listed⟩ ⟨stack, listed ++ cs.flatMap a.descendants⟩ := by
  induction cs generalizing listed with
  | nil =>
    rw [reverse_nil, flatMap_nil, append_nil, append_nil]
    exact .refl
  | cons c cs ih =>
    rw [forall_mem_cons] at hlist
    rw [reverse_cons, ← append_assoc, flatMap_cons, ← append_assoc]
    exact (hlist.1 _ _).trans (ih hlist.2)

theorem leadsTo_descendants (ha : a.Acyclic) (hx : x < a.size) (stack listed : List NodeId) :
    a.LeadsTo ⟨stack ++ [x], listed⟩ ⟨stack, listed ++ a.descendants x⟩ := by
  -- The nodes that can still be reached get fewer on the way down.
  induction hn : reachCount a.Lists a.size x using Nat.strongRecOn generalizing x stack listed with
  | ind n ih =>
    have hturn : a.next? ⟨stack ++ [x], listed⟩ = some ⟨stack ++ (a.children x).reverse, listed ++ [x]⟩ := by
      simp [next?]
    rw [ha.descendants_eq hx, append_cons listed]
    refine .head hturn (leadsTo_children fun c hc stack listed => ?_)
    exact ih _ (hn ▸ ha.reachCount_child hc) (ha.bounded x c hc) stack listed rfl

end Acyclic

end Arena

namespace Restorer

variable {coords : Coordinates} {h : Arena} {program n x : NodeId} {fuel : Nat} {ns : List NodeId}
  {s : Restorer}

mutual

/-- The nodes that the walk over a sub-tree enters, in this order. It stops where it fails. -/
def entered (coords : Coordinates) : Nat → NodeId → Restorer → List NodeId
  | 0, _, _ => []
  | fuel + 1, node, s =>
    let range := s.bench.arena.range node
    let (task, tasks) := s.nextTask? range
    if task.any (·.range ≠ range) then [node]
    else node :: enteredAll coords fuel (s.bench.arena.children node) { s with tasks }

def enteredAll (coords : Coordinates) (fuel : Nat) : List NodeId → Restorer → List NodeId
  | [], _ => []
  | n :: ns, s => entered coords fuel n s ++
    match walk coords fuel n s with
    | .ok s => enteredAll coords fuel ns s
    | .error _ => []

end

/-- Nodes were entered in the order of a list, all of them if the walk came to its end. -/
def InOrder (nodes entered : List NodeId) (r : Except Failure Restorer) : Prop :=
  entered <+: nodes ∧ (r.isOk = true → entered = nodes)

theorem enteredAll_inOrder_of (ht : h.Rooted program)
    (hentered : ∀ {n s}, h.Below program n → Ready h program [n] s →
      InOrder (h.descendantsWithin fuel n) (entered coords fuel n s) (walk coords fuel n s))
    (hx : h.Below program x)
    (hns : ∀ n ∈ ns, h.Lists x n) (hnodup : ns.Nodup) (hs : Ready h program ns s) :
    InOrder (ns.flatMap (h.descendantsWithin fuel)) (enteredAll coords fuel ns s)
      (walkAll coords fuel ns s) := by
  induction ns generalizing s with
  | nil =>
    rw [enteredAll]
    exact ⟨prefix_refl _, fun _ => rfl⟩
  | cons n ns ih =>
    rw [forall_mem_cons] at hns
    rw [nodup_cons] at hnodup
    have hbelow := hx.tail hns.1
    obtain ⟨hstart, hall⟩ := hentered hbelow hs.first
    have hagrees : Agrees coords h program [n] (h.descendantsWithin fuel n) s (walk coords fuel n s) :=
      walk_agrees ht hbelow hs.first
    rw [enteredAll, walkAll]
    cases hwalk : walk coords fuel n s with
    | error e =>
      refine ⟨?_, fun hok => by cases hok⟩
      rw [append_nil]
      exact hstart.trans (prefix_append _ _)
    | ok s1 =>
      rw [hwalk] at hagrees hall
      rw [hall rfl]
      obtain ⟨hstart', hall'⟩ := ih hns.2 hnodup.2 (hs.next ht hx hns.1 hns.2 hnodup.1 hagrees)
      exact ⟨(prefix_append_right_inj _).mpr hstart', fun hok => congrArg _ (hall' hok)⟩

/-- The walk enters the nodes of a sub-tree in pre-order, whatever undoing the tasks changes on the
way. -/
theorem entered_inOrder (ht : h.Rooted program) (hn : h.Below program n)
    (hs : Ready h program [n] s) :
    InOrder (h.descendantsWithin fuel n) (entered coords fuel n s) (walk coords fuel n s) := by
  induction fuel generalizing n s with
  | zero =>
    rw [entered]
    exact ⟨prefix_refl _, fun _ => rfl⟩
  | succ fuel ih =>
    have hu := hs.untouched n (mem_singleton_self n)
    have hinside : ∀ {ts : List Task}, ts ⊆ s.tasks →
        InOrder ((h.children n).flatMap (h.descendantsWithin fuel))
          (enteredAll coords fuel (h.children n) { s with tasks := ts })
          (walkAll coords fuel (h.children n) { s with tasks := ts }) := fun hts =>
      enteredAll_inOrder_of ht ih hn (fun c hc => hc) (ht.nodup n hn) (hs.inside hts)
    rw [entered, walk]
    dsimp only
    rw [(hu n .refl).2, hu.children_eq]
    rcases nextTask?_cases s (h.range n) with ⟨hnext, -⟩ | ⟨t, rest, htasks, hnext, -⟩
    · rw [hnext]
      obtain ⟨hstart, hall⟩ := hinside (List.Subset.refl _)
      exact ⟨(prefix_cons_inj n).mpr hstart, fun hok => congrArg (n :: ·) (hall hok)⟩
    · rw [hnext]
      dsimp only
      by_cases hrange : t.range ≠ h.range n
      · rw [if_pos hrange, if_pos (by simpa using hrange)]
        exact ⟨(prefix_cons_inj n).mpr <| nil_prefix .., fun hok => by cases hok⟩
      · rw [if_neg hrange, if_neg (by simpa using hrange)]
        obtain ⟨hstart, hall⟩ := @hinside rest (by simp [htasks])
        refine ⟨(prefix_cons_inj n).mpr hstart, fun hok => ?_⟩
        cases hwalk : walkAll coords fuel (h.children n) { s with tasks := rest } with
        | error e =>
          rw [hwalk] at hok
          cases hok
        | ok s1 =>
          rw [hwalk] at hall
          exact congrArg (n :: ·) (hall rfl)

end Restorer

/-- The listing of a node is the node followed by the listings of its children, and what is left
when a stack of nodes runs empty. In a tree it has each node of the sub-tree once, after all nodes
above it, in the order in which the walk enters them. -/
theorem descendants_preorder {a : Arena} (ha : a.Acyclic) {id : NodeId} (hid : id < a.size) :
    a.LeadsTo ⟨[id], []⟩ ⟨[], a.descendants id⟩ ∧
      a.descendants id = id :: (a.children id).flatMap a.descendants ∧
      (∀ quasis expressions, a.kind id = .templateLiteral quasis expressions →
        (a.children id).Perm (quasis ++ expressions) ∧
          (a.children id).Pairwise fun x y => (a.range x).start ≤ (a.range y).start) ∧
      ∀ root, a.Rooted root → a.Below root id →
        (a.descendants id).Nodup ∧ (∀ x, x ∈ a.descendants id ↔ a.Below id x) ∧
        ((a.descendants id).Pairwise fun x y => ¬ a.Below y x) ∧
        ∀ (coords : Coordinates) (s : Restorer), s.bench.arena = a → (∀ t ∈ s.tasks, t.Foreign a root) →
          Restorer.InOrder (a.descendants id) (s.entered coords a.size id) (s.walk coords a.size id) := by
  refine ⟨ha.leadsTo_descendants hid [] [], ha.descendants_eq hid,
    fun quasis expressions hkind => ?_, ?_⟩
  · unfold Arena.children
    rw [hkind]
    exact ⟨List.mergeSort_perm .., pairwise_mergeSort_key (fun x => (a.range x).start) _⟩
  · intro root ht hbelow
    have hafter := ht.pairwise_descendantsWithin hbelow a.size
    have hnodup := hafter.imp fun {x y} hxy (heq : x = y) => hxy (heq ▸ .refl)
    refine ⟨hnodup, fun x => ht.mem_descendants rfl (fun _ _ => rfl) hbelow, hafter, ?_⟩
    intro coords s hs hforeign
    subst hs
    exact Restorer.entered_inOrder ht hbelow ⟨.refl .., fun _ _ _ _ => ⟨rfl, rfl⟩, hforeign⟩

theorem descendants_preorder_conditional :
    let a := conditional.parsed.1
    let s := Restorer.start conditional.woven.script a .empty [] []
    a.descendants 6 = [6, 2, 5, 4, 3] ∧ a.LeadsTo ⟨[6], []⟩ ⟨[], a.descendants 6⟩ ∧
      Restorer.InOrder (a.descendants 6) (s.entered (.ofText conditional.source) a.size 6)
        (s.walk (.ofText conditional.source) a.size 6) := by
  intro a s
  have hacyclic : a.Acyclic := .of_rank (fun x => if x = 0 then 9 else x) (by decide +kernel)
  have ht := conditional_hostTree
  have hbelow : a.Below conditional.parsed.2.program 6 := by
    have hchild : 6 ∈ a.children conditional.parsed.2.program := by decide +kernel
    exact .single hchild
  obtain ⟨hstack, -, -, htree⟩ := descendants_preorder hacyclic (by decide +kernel : 6 < a.size)
  obtain ⟨-, -, -, hentered⟩ := htree _ ht.toRooted hbelow
  exact ⟨by decide +kernel, hstack, hentered _ s rfl (ht.foreign (weave_accepting _ _ _))⟩

end Loom
