import Loom.Proofs.Restore.Move
import Loom.Proofs.Restore.Shape
import Loom.Proofs.Weave.Document

/-!
The state of the bench between two wrappers.

Wrappers are undone inside out, so a statement that is undone has no undone statement above it. The
sub-trees that its fragments became hold no other wrapper and were not moved before, because no
wrapper starts where a fragment is. What was undone before is left alone from then on.
-/

open List

namespace Loom

open Arena Kind

variable {source : Text} {woven : Woven} {scripts : List Fragment} {h : Arena}
  {program n x y z c : NodeId}
  {w w' w1 w2 : Workbench} {done : List Match} {m : Match} {t : Task} {f : Fragment}

/-- A wrapper that was undone: its task, the statement that it became, and the nodes for its
fragments. -/
structure Match where
  task : Task
  node : NodeId
  targets : List NodeId

/-- The fragments with their nodes. -/
def Match.pairs (m : Match) : List (Fragment × NodeId) := m.task.fragments.zip m.targets

/-- No node between the program and `n` has the range `r`. -/
def Arena.Outermost (h : Arena) (program : NodeId) (r : Range) (n : NodeId) : Prop :=
  ∀ x, h.Below program x → x ≠ program → h.Below x n → x ≠ n → h.range x ≠ r

/-- `n` is the outermost node with the range of a wrapper. -/
structure Arena.StandsFor (h : Arena) (program : NodeId) (t : Task) (n : NodeId) : Prop where
  below : h.Below program n
  range : h.range n = t.range
  outermost : h.Outermost program t.range n

/-- The bench after the wrappers `done` were undone, in this order. -/
structure Standing (source : Text) (woven : Woven) (scripts : List Fragment) (h : Arena)
    (program : NodeId) (w : Workbench) (done : List Match) : Prop where
  host : HostTree woven.arena h program
  layout : Layout source woven scripts
  size : w.arena.size = h.size
  /-- The statements are gone from the nodes of the script. -/
  kind : ∀ x, h.Below program x → w.arena.kind x = (h.kind x).dropAll (done.map Match.node)
  /-- The markup nodes have their slots filled. -/
  markup : ∀ i, i < woven.arena.size → (h.kind i).fill (slotsOf i (done.flatMap Match.pairs)) =
    some (w.arena.kind i)
  parent : ∀ x, h.Below program x → (∀ m ∈ done, x ≠ m.node ∧ x ∉ m.targets) →
    w.arena.parent x = h.parent x
  markupParent : ∀ i, i < woven.arena.size → w.arena.parent i = h.parent i
  owner : ∀ m ∈ done, ∀ p ∈ m.pairs, w.arena.parent p.2 = some p.1.owner
  /-- A statement that is still in its place has its parent. -/
  listed : ∀ m ∈ done, ∀ x, h.Below program x → w.arena.Lists x m.node →
    w.arena.parent m.node = some x
  visited : ∀ x, x ∈ w.visited ↔ ∃ m ∈ done, ∃ y ∈ m.targets, h.Below y x
  still : ∀ x, h.Below program x → x ∉ w.visited → w.arena.range x = h.range x
  moved : ∀ m ∈ done, ∀ p ∈ m.pairs, ∀ x, h.Below p.2 x →
    w.arena.range x = (h.range x).shifted p.1.delta ∧
      w.arena.loc x = (Coordinates.ofText source).location (w.arena.range x)
  task : ∀ m ∈ done, m.task ∈ woven.script.tasks
  below : ∀ m ∈ done, ∃ x, h.Below program x ∧ h.Lists x m.node
  range : ∀ m ∈ done, h.range m.node = m.task.range
  shape : ∀ m ∈ done, m.task.Shape w.arena m.node m.targets
  inside : ∀ m ∈ done, ∀ p ∈ m.pairs, p.1.generated.contains (h.range p.2) = true
  /-- Each statement is the outermost node with the range of its wrapper. -/
  outermost : ∀ m ∈ done, h.Outermost program m.task.range m.node
  /-- Later statements are not inside earlier ones. -/
  order : done.Pairwise fun m m' => ¬ h.Below m.node m'.node

namespace Standing

theorem start (ht : HostTree woven.arena h program) (hlayout : Layout source woven scripts)
    (scopes : ScopeGraph) : Standing source woven scripts h program ⟨h, scopes, []⟩ [] := by
  constructor <;> simp [ht, hlayout, dropAll, fill, slotsOf]

variable (s : Standing source woven scripts h program w done)

include s

theorem node_below (hm : m ∈ done) : h.Below program m.node := by
  obtain ⟨x, hx, hlists⟩ := s.below m hm
  exact hx.tail hlists

theorem node_ne (hm : m ∈ done) : ¬ h.Below m.node program := by
  intro hbelow
  obtain ⟨x, hx, hlists⟩ := s.below m hm
  exact s.host.not_below_parent hx hlists (hbelow.trans hx)

theorem standsFor (hm : m ∈ done) : h.StandsFor program m.task m.node :=
  ⟨s.node_below hm, s.range m hm, s.outermost m hm⟩

/-- Links of script nodes are only taken away. -/
theorem lists_host (hx : h.Below program x) (hc : w.arena.Lists x c) : h.Lists x c := by
  rw [Arena.Lists, mem_children, s.kind x hx] at hc
  rw [Arena.Lists, mem_children]
  exact (childIds_dropAll_sublist ..).subset hc

theorem below_host (hx : h.Below program x) (hy : w.arena.Below x y) : h.Below x y :=
  below_of_lists (fun _ _ hz hc => s.lists_host (hx.trans hz) hc) hy

theorem nodup_host (hx : h.Below program x) : (w.arena.kind x).childIds.Nodup := by
  rw [s.kind x hx]
  have hnodup := (h.children_perm x).nodup_iff.mp (s.host.nodup x hx)
  exact List.Nodup.sublist (childIds_dropAll_sublist ..) hnodup

/-- A node that lists no undone statement is as it was. -/
theorem kind_eq (hx : h.Below program x) (hnone : ∀ m ∈ done, ¬ h.Lists x m.node) :
    w.arena.kind x = h.kind x := by
  rw [s.kind x hx]
  refine dropAll_of_notMem fun n hn hmem => ?_
  obtain ⟨m, hm, rfl⟩ := mem_map.mp hn
  exact hnone m hm (mem_children.mpr hmem)

/-! The nodes for the fragments of a statement. -/

theorem within_below (hn : h.Below program n) (hy : w.arena.Within n y) : h.Below n y ∧ y ≠ n := by
  obtain ⟨c, hc, hpath⟩ := hy
  have hlists := s.lists_host hn hc
  have hbelow := s.below_host (hn.tail hlists) (below_of_plain hpath)
  refine ⟨.head hlists hbelow, ?_⟩
  rintro rfl
  exact s.host.not_below_parent hn hlists hbelow

/-- No statement of the form of a wrapper is between a statement and the nodes for its fragments. -/
theorem not_wrapper_between (hn : h.Below program n) (hy : w.arena.Within n y) (hnz : h.Below n z)
    (hzy : h.Below z y) (hn' : z ≠ n) (hy' : z ≠ y) : (w.arena.kind z).isWrapper = false := by
  obtain ⟨c, hc, hpath⟩ := hy
  have hlists := s.lists_host hn hc
  have hz := hn.trans hnz
  induction hpath with
  | refl =>
    have hzn := s.host.below_parent hz hn hlists hzy hy'
    exact absurd (s.host.antisymm hz hzn hnz) hn'
  | tail hpath hlink ih =>
    rename_i b y
    have hb : h.Below program b :=
      (hn.tail hlists).trans (s.below_host (hn.tail hlists) (below_of_plain hpath))
    by_cases hzb : z = b
    · rw [hzb]
      exact hlink.2
    · exact ih (s.host.below_parent hz hb (s.lists_host hb hlink.1) hzy hy') hzb

theorem target_below (hm : m ∈ done) (hy : y ∈ m.targets) : h.Below m.node y ∧ y ≠ m.node :=
  s.within_below (s.node_below hm) ((s.shape m hm).within hy)

/-- An undone statement above a node for a fragment of the next statement is that node. -/
theorem node_eq_target (hn : h.Below program n) (hfresh : ∀ m ∈ done, ¬ h.Below m.node n)
    (hy : w.arena.Within n y) (hm : m ∈ done) (hbelow : h.Below m.node y) : m.node = y := by
  by_contra hne
  have hny := (s.within_below hn hy).1
  have hnm : h.Below n m.node :=
    (s.host.comparable hn (s.node_below hm) hny hbelow).resolve_right (hfresh m hm)
  have hne' : m.node ≠ n := by
    intro heq
    exact hfresh m hm (heq ▸ .refl)
  have hkind := s.not_wrapper_between hn hy hnm hbelow hne' hne
  rw [(s.shape m hm).wrapper] at hkind
  cases hkind

/-- The nodes for the fragments of the next statement were not moved. -/
theorem target_unvisited (hn : h.Below program n) (hfresh : ∀ m ∈ done, ¬ h.Below m.node n)
    (hy : w.arena.Within n y) : y ∉ w.visited := by
  intro hvis
  obtain ⟨m, hm, y', hy', hbelow⟩ := (s.visited y).mp hvis
  obtain ⟨hmy', hne⟩ := s.target_below hm hy'
  have heq := s.node_eq_target hn hfresh hy hm (hmy'.trans hbelow)
  rw [← heq] at hbelow
  exact hne (s.host.antisymm (s.node_below hm) hmy' hbelow).symm

/-- No undone statement is inside a node that lies in a fragment. -/
theorem not_below_inside (htask : t ∈ woven.script.tasks) (hf : f ∈ t.fragments)
    (hy : h.Below program y)
    (hinside : f.generated.contains (h.range y) = true) (hm : m ∈ done) : ¬ h.Below y m.node := by
  intro hbelow
  have hcontains := s.host.contains_of_below hy hbelow
  have hord := s.host.ordered m.node (s.node_below hm)
  rw [Range.contains_iff] at hinside
  have hrange := s.range m hm
  have houtside := s.layout.start_outside htask (s.task m hm) hf
  rw [hrange] at hcontains hord
  omega

/-- Nothing inside such a node was moved. -/
theorem inside_unvisited (hn : h.Below program n)
    (hfresh : ∀ m ∈ done, ¬ h.Below m.node n) (hy : w.arena.Within n y)
    (htask : t ∈ woven.script.tasks)
    (hf : f ∈ t.fragments) (hinside : f.generated.contains (h.range y) = true) (hx : h.Below y x) :
    x ∉ w.visited := by
  intro hvis
  have hy' : h.Below program y := hn.trans (s.within_below hn hy).1
  obtain ⟨m, hm, y', hmem, hbelow⟩ := (s.visited x).mp hvis
  have hmx := (s.target_below hm hmem).1.trans hbelow
  rcases s.host.comparable hy' (s.node_below hm) hx hmx with hym | hmy
  · exact s.not_below_inside htask hf hy' hinside hm hym
  · have heq := s.node_eq_target hn hfresh hy hm hmy
    exact s.not_below_inside htask hf hy' hinside hm (heq ▸ .refl)

/-- Nodes in different branches share no node below them. -/
theorem split_apart {y' : NodeId} (hn : h.Below program n) (hsplit : w.arena.Split n y y')
    (hx : h.Below y x) : ¬ h.Below y' x := by
  intro hx'
  obtain ⟨b, c, c', hb, hc, hc', hne, hy, hy'⟩ := hsplit
  have hb := hn.trans (s.below_host hn hb)
  have hc := s.lists_host hb hc
  have hc' := s.lists_host hb hc'
  have hy := (s.below_host (hb.tail hc) hy).trans hx
  have hy' := (s.below_host (hb.tail hc') hy').trans hx'
  exact hne (s.host.eq_of_below_siblings hb hc hc' hy hy')

end Standing

theorem Match.pairs_snd {m : Match} {a : Arena} (h : m.task.Shape a m.node m.targets) :
    m.pairs.map Prod.snd = m.targets :=
  map_snd_zip (Nat.le_of_eq h.length)

theorem Match.mem_pairs {m : Match} {p : Fragment × NodeId} (hp : p ∈ m.pairs) :
    p.1 ∈ m.task.fragments ∧ p.2 ∈ m.targets :=
  of_mem_zip hp

namespace Standing

variable {targets : List NodeId}

variable (s : Standing source woven scripts h program w done)

include s

/-- The nodes for the fragments of the next statement move as they were parsed. -/
theorem shifted (htask : t ∈ woven.script.tasks) (hn : h.Below program n)
    (hfresh : ∀ m ∈ done, ¬ h.Below m.node n) (hshape : t.Shape w.arena n targets)
    (hok : t.shiftTargets (.ofText source) (t.fragments.zip targets) w = .ok w1) :
    (∀ p ∈ t.fragments.zip targets, p.1.generated.contains (h.range p.2) = true) ∧
      Workbench.Shifted h (.ofText source) (t.fragments.zip targets) w w1 := by
  have hwithin : ∀ p ∈ t.fragments.zip targets, w.arena.Within n p.2 := fun p hp =>
    hshape.within (of_mem_zip hp).2
  have hbelow : ∀ p ∈ t.fragments.zip targets, h.Below program p.2 := fun p hp =>
    hn.trans (s.within_below hn (hwithin p hp)).1
  refine Workbench.shiftTargets_shifted s.host hok s.size hbelow ?_ ?_ ?_
  · intro p hp
    exact s.still p.2 (hbelow p hp) (s.target_unvisited hn hfresh (hwithin p hp))
  · intro p hp hinside x hx
    have hf := (of_mem_zip hp).1
    refine ⟨s.kind_eq ((hbelow p hp).trans hx) fun m hm hlists => ?_, ?_⟩
    · exact s.not_below_inside htask hf (hbelow p hp) hinside hm (hx.tail hlists)
    · exact s.inside_unvisited hn hfresh (hwithin p hp) htask hf hinside hx
  · have hsplit := hshape.split (fun x hx => s.nodup_host (hn.trans (s.below_host hn hx)))
      (s.layout.ownSlots t htask)
    rw [← map_snd_zip (Nat.le_of_eq hshape.length), pairwise_map] at hsplit
    exact hsplit.imp fun hpair x hx => s.split_apart hn hpair hx

theorem targets_nodup (hn : h.Below program n) (hshape : t.Shape w.arena n targets)
    (hown : t.OwnSlots) : targets.Nodup := by
  have hsplit := hshape.split (fun x hx => s.nodup_host (hn.trans (s.below_host hn hx))) hown
  refine hsplit.imp fun hpair heq => ?_
  subst heq
  exact s.split_apart hn hpair .refl .refl

/-- A node outside of the undone statements is the parent of what it lists. -/
theorem parent_of_lists {c : NodeId} (hx : h.Below program x)
    (hout : ∀ m ∈ done, ¬ h.Below m.node x)
    (hc : w.arena.Lists x c) : w.arena.parent c = some x := by
  have hlists := s.lists_host hx hc
  by_cases hnode : ∃ m ∈ done, c = m.node
  · obtain ⟨m, hm, rfl⟩ := hnode
    exact s.listed m hm x hx hc
  · rw [s.parent c (hx.tail hlists), s.host.parent x c hx hlists]
    refine fun m hm => ⟨fun heq => hnode ⟨m, hm, heq⟩, fun hmem => ?_⟩
    obtain ⟨hbelow, hne⟩ := s.target_below hm hmem
    exact hout m hm (s.host.below_parent (s.node_below hm) hx hlists hbelow (Ne.symm hne))

/-- The next statement has the parent that the parser gave it. -/
theorem parent_eq (hx : h.Below program x) (hlists : h.Lists x n)
    (hfresh : ∀ m ∈ done, ¬ h.Below m.node n) : w.arena.parent n = some x := by
  rw [s.parent n (hx.tail hlists), s.host.parent x n hx hlists]
  intro m hm
  constructor
  · rintro rfl
    exact hfresh m hm .refl
  · intro hmem
    exact hfresh m hm (s.target_below hm hmem).1

end Standing

/-- A wrapper was undone whose statement is a child of `x`. -/
structure Workbench.Undone (h : Arena) (coords : Coordinates) (m : Match) (x : NodeId)
    (w w' : Workbench) : Prop where
  size : w'.arena.size = w.arena.size
  kind : ∀ i, ∃ k, (w.arena.kind i).fill (slotsOf i m.pairs) = some k ∧
    w'.arena.kind i = if i = x then k.drop m.node else k
  parent : ∀ y, y ≠ m.node → y ∉ m.targets → w'.arena.parent y = w.arena.parent y
  owner : ∀ p ∈ m.pairs, w'.arena.parent p.2 = some p.1.owner
  kept : ∀ k, (w.arena.kind x).fill (slotsOf x m.pairs) = some k → k.canDrop m.node = false →
    w'.arena.parent m.node = some x
  visited : ∀ y, y ∈ w'.visited ↔ y ∈ w.visited ∨ ∃ target ∈ m.targets, h.Below target y
  still : ∀ y, (∀ target ∈ m.targets, ¬ h.Below target y) →
    w'.arena.range y = w.arena.range y ∧ w'.arena.loc y = w.arena.loc y
  moved : ∀ p ∈ m.pairs, ∀ y, h.Below p.2 y → w'.arena.range y =
      (w.arena.range y).shifted p.1.delta ∧ w'.arena.loc y = coords.location (w'.arena.range y)

namespace Workbench

variable {coords : Coordinates}

theorem Shifted.undone (hshifted : Shifted h coords m.pairs w w1)
    (hattached : Attached m.pairs w1 w2)
    (hpairs : m.pairs.map Prod.snd = m.targets) (hnodup : m.targets.Nodup)
    (hself : m.node ∉ m.targets)
    (hparent : w.arena.parent m.node = some x) (hlt : x < w.arena.size) :
    Undone h coords m x w { w2 with arena := (w2.arena.detach m.node).2 } := by
  have hmem : ∀ {y}, y ∈ m.targets ↔ ∃ p ∈ m.pairs, p.2 = y := by
    intro y
    rw [← hpairs, mem_map]
  have hother : ∀ {y}, y ∉ m.targets → ∀ p ∈ m.pairs, y ≠ p.2 := fun hy p hp he =>
    hy (hmem.mpr ⟨p, hp, he.symm⟩)
  have hparent2 : w2.arena.parent m.node = some x := by
    rw [hattached.parent _ (hother hself), hshifted.parent, hparent]
  have hlt2 : x < w2.arena.size := by
    rw [hattached.size, hshifted.size]
    exact hlt
  have hdet := Arena.Relinked.detach (a := w2.arena) m.node
  constructor
  case size => rw [hdet.size, hattached.size, hshifted.size]
  case kind =>
    intro i
    refine ⟨w2.arena.kind i, ?_, ?_⟩
    · rw [← hshifted.kind]
      exact hattached.kind i
    · rw [kind_detach hparent2 hlt2]
      split
      · rename_i hi
        rw [hi]
      · rfl
  case parent =>
    intro y hne hy
    rw [hdet.parent y hne, hattached.parent y (hother hy), hshifted.parent]
  case owner =>
    intro p hp
    have hne : p.2 ≠ m.node := fun heq => hself (hmem.mpr ⟨p, hp, heq⟩)
    rw [hdet.parent p.2 hne]
    exact hattached.owner (hpairs ▸ hnodup) p hp
  case kept =>
    intro k hk hcan
    rw [← hshifted.kind, hattached.kind x] at hk
    rcases canDrop_or_parent_detach hparent2 with hdrop | hkeep
    · rw [Option.some.inj hk, hcan] at hdrop
      cases hdrop
    · exact hkeep.trans hparent2
  case visited =>
    intro y
    rw [hattached.visited, hshifted.visited]
    simp only [hmem, exists_exists_and_eq_and]
  case still =>
    intro y hy
    rw [hdet.range, hdet.loc, hattached.range, hattached.loc]
    exact hshifted.still y fun p hp => hy p.2 (hmem.mpr ⟨p, hp, rfl⟩)
  case moved =>
    intro p hp y hy
    rw [hdet.range, hdet.loc, hattached.range, hattached.loc]
    exact hshifted.moved p hp y hy

/-- A script node has no slots to fill. -/
theorem slotsOf_script {source : Text} {woven : Woven} {scripts : List Fragment} {y : NodeId}
    (hlayout : Layout source woven scripts) (htask : m.task ∈ woven.script.tasks)
    (hy : woven.arena.size ≤ y) : slotsOf y m.pairs = [] := by
  unfold slotsOf
  rw [map_eq_nil_iff, filter_eq_nil_iff]
  intro p hp howner
  have hlt := hlayout.owner_lt p.1 (mem_taskFragments.mpr ⟨m.task, htask, (Match.mem_pairs hp).1⟩)
  rw [of_decide_eq_true howner] at hlt
  exact absurd hlt (Nat.not_lt_of_le hy)

theorem Undone.kind_script {source : Text} {woven : Woven} {scripts : List Fragment}
    {w' : Workbench} {y : NodeId}
    (hundone : Undone h coords m x w w') (hlayout : Layout source woven scripts)
    (htask : m.task ∈ woven.script.tasks) (hy : woven.arena.size ≤ y) :
    w'.arena.kind y = if y = x then (w.arena.kind y).drop m.node else w.arena.kind y := by
  obtain ⟨k, hk, hkind⟩ := hundone.kind y
  rw [slotsOf_script hlayout htask hy] at hk
  cases hk
  exact hkind

end Workbench

namespace Standing

section Undone

variable (s : Standing source woven scripts h program w done) (htask : m.task ∈ woven.script.tasks)
  (hx : h.Below program x) (hlists : h.Lists x m.node)
    (hfresh : ∀ m' ∈ done, ¬ h.Below m'.node m.node)
  (hshape : m.task.Shape w.arena m.node m.targets)
  (hinside : ∀ p ∈ m.pairs, p.1.generated.contains (h.range p.2) = true)
  (hundone : Workbench.Undone h (.ofText source) m x w w')

include s

include hx hlists in
/-- Only its parent lists the statement. -/
theorem eq_of_lists (hy : h.Below program y) (hc : w.arena.Lists y m.node) : y = x :=
  Option.some.inj
    ((s.host.parent y m.node hy (s.lists_host hy hc)).symm.trans (s.host.parent x m.node hx hlists))

include htask

include hfresh hshape hinside hx hlists in
theorem pair_unvisited : ∀ p ∈ m.pairs, ∀ y, h.Below p.2 y → y ∉ w.visited := fun p hp _ hy =>
  s.inside_unvisited (hx.tail hlists) hfresh (hshape.within (Match.mem_pairs hp).2) htask
    (Match.mem_pairs hp).1 (hinside p hp) hy

include hundone

theorem kind_undone (hy : h.Below program y) :
    w'.arena.kind y = if y = x then (w.arena.kind y).drop m.node else w.arena.kind y :=
  hundone.kind_script s.layout htask (s.host.fresh y hy)

theorem lists_of_undone (hy : h.Below program y) (hc : w'.arena.Lists y c) : w.arena.Lists y c := by
  rw [Arena.Lists, mem_children, s.kind_undone htask hundone hy] at hc
  rw [Arena.Lists, mem_children]
  split at hc
  · exact (childIds_drop_sublist ..).subset hc
  · exact hc

include hx hlists hfresh hshape

omit htask in
theorem owner_undone :
    ∀ m' ∈ done ++ [m], ∀ p ∈ m'.pairs, w'.arena.parent p.2 = some p.1.owner := by
  refine forall_mem_append.mpr ⟨fun m' hm' p hp => ?_, forall_mem_singleton.mpr hundone.owner⟩
  have hmem := (Match.mem_pairs hp).2
  have hne : p.2 ≠ m.node := fun heq => hfresh m' hm' (heq ▸ (s.target_below hm' hmem).1)
  -- A node that was put into a slot was moved, and the next ones were not.
  have hout : p.2 ∉ m.targets := fun hmem' => s.target_unvisited (hx.tail hlists) hfresh
    (hshape.within hmem') ((s.visited _).mpr ⟨m', hm', p.2, hmem, .refl⟩)
  rw [hundone.parent p.2 hne hout]
  exact s.owner m' hm' p hp

theorem shape_undone : ∀ m' ∈ done ++ [m], m'.task.Shape w'.arena m'.node m'.targets := by
  have hsame : ∀ y, h.Below program y → y ≠ x → w'.arena.kind y = w.arena.kind y := fun y hy hne =>
    (s.kind_undone htask hundone hy).trans (if_neg hne)
  refine forall_mem_append.mpr ⟨fun m' hm' => ?_, forall_mem_singleton.mpr ?_⟩
  · refine (s.shape m' hm').congr fun y hy _ => ?_
    have hy := s.below_host (s.node_below hm') hy
    refine hsame y ((s.node_below hm').trans hy) ?_
    rintro rfl
    exact hfresh m' hm' (hy.tail hlists)
  · refine hshape.congr fun y hy _ => ?_
    have hy := s.below_host (hx.tail hlists) hy
    refine hsame y ((hx.tail hlists).trans hy) ?_
    rintro rfl
    exact s.host.not_below_parent hx hlists hy

include hinside

theorem listed_undone : ∀ m' ∈ done ++ [m], ∀ y, h.Below program y → w'.arena.Lists y m'.node →
    w'.arena.parent m'.node = some y := by
  refine forall_mem_append.mpr ⟨fun m' hm' y hy hc => ?_,
    forall_mem_singleton.mpr fun y hy hc => ?_⟩
  · have hne : m'.node ≠ m.node := fun heq => hfresh m' hm' (heq ▸ .refl)
    have hout : m'.node ∉ m.targets := by
      rw [← Match.pairs_snd hshape, mem_map]
      rintro ⟨p, hp, heq⟩
      have hbelow := (s.within_below (hx.tail hlists) (hshape.within (Match.mem_pairs hp).2)).1
      exact s.not_below_inside htask (Match.mem_pairs hp).1 ((hx.tail hlists).trans hbelow)
        (hinside p hp) hm' (heq ▸ .refl)
    rw [hundone.parent m'.node hne hout]
    exact s.listed m' hm' y hy (s.lists_of_undone htask hundone hy hc)
  · obtain rfl := s.eq_of_lists hx hlists hy (s.lists_of_undone htask hundone hy hc)
    have hnone := Workbench.slotsOf_script s.layout htask (s.host.fresh y hy)
    refine hundone.kept (w.arena.kind y) (by rw [hnone]; rfl) ?_
    by_contra hcan
    rw [Arena.Lists, mem_children, s.kind_undone htask hundone hy, if_pos rfl] at hc
    exact notMem_childIds_drop (s.nodup_host hy) (by simpa using hcan) hc

theorem moved_undone : ∀ m' ∈ done ++ [m], ∀ p ∈ m'.pairs, ∀ y, h.Below p.2 y →
    w'.arena.range y = (h.range y).shifted p.1.delta ∧
      w'.arena.loc y = (Coordinates.ofText source).location (w'.arena.range y) := by
  have hclear := s.pair_unvisited htask hx hlists hfresh hshape hinside
  refine forall_mem_append.mpr ⟨fun m' hm' p hp y hy => ?_,
    forall_mem_singleton.mpr fun p hp y hy => ?_⟩
  · have hvis : y ∈ w.visited := (s.visited y).mpr ⟨m', hm', p.2, (Match.mem_pairs hp).2, hy⟩
    have hout : ∀ target ∈ m.targets, ¬ h.Below target y := by
      rw [← Match.pairs_snd hshape, forall_mem_map]
      exact fun q hq hy' => hclear q hq y hy' hvis
    obtain ⟨hrange', hloc'⟩ := hundone.still y hout
    rw [hrange', hloc']
    exact s.moved m' hm' p hp y hy
  · have hbelow := (s.within_below (hx.tail hlists) (hshape.within (Match.mem_pairs hp).2)).1
    rw [← s.still y ((hx.tail hlists).trans (hbelow.trans hy)) (hclear p hp y hy)]
    exact hundone.moved p hp y hy

/-- Undoing the wrapper of a statement that is not inside an undone one. -/
theorem undone (hrange : h.range m.node = m.task.range)
    (houtermost : h.Outermost program m.task.range m.node) :
    Standing source woven scripts h program w' (done ++ [m]) := by
  have hn := hx.tail hlists
  constructor
  case host => exact s.host
  case layout => exact s.layout
  case size => rw [hundone.size, s.size]
  case kind =>
    intro y hy
    rw [s.kind_undone htask hundone hy, map_append, dropAll_append, ← s.kind y hy]
    split
    · rfl
    · next hne =>
      exact (drop_of_notMem fun hmem => hne (s.eq_of_lists hx hlists hy (mem_children.mpr hmem))).symm
  case markup =>
    intro i hi
    obtain ⟨k, hk, hkind⟩ := hundone.kind i
    have hne : i ≠ x := Nat.ne_of_lt (Nat.lt_of_lt_of_le hi (s.host.fresh x hx))
    rw [flatMap_append, slotsOf_append, fill_append (s.markup i hi), hkind, if_neg hne]
    simpa using hk
  case parent =>
    intro y hy hout
    rw [forall_mem_append, forall_mem_singleton] at hout
    rw [hundone.parent y hout.2.1 hout.2.2, s.parent y hy hout.1]
  case markupParent =>
    intro i hi
    have hne : i ≠ m.node := Nat.ne_of_lt (Nat.lt_of_lt_of_le hi (s.host.fresh _ hn))
    have hout : i ∉ m.targets := fun hmem =>
      Nat.not_lt_of_le (s.host.fresh i (hn.trans (s.within_below hn (hshape.within hmem)).1)) hi
    rw [hundone.parent i hne hout, s.markupParent i hi]
  case owner => exact s.owner_undone hx hlists hfresh hshape hundone
  case listed => exact s.listed_undone htask hx hlists hfresh hshape hinside hundone
  case visited =>
    intro y
    rw [hundone.visited, s.visited]
    simp only [mem_append, mem_singleton, or_and_right, exists_or, exists_eq_left]
  case still =>
    intro y hy hnew
    rw [hundone.visited, not_or] at hnew
    rw [(hundone.still y fun target htarget hy => hnew.2 ⟨target, htarget, hy⟩).1,
      s.still y hy hnew.1]
  case moved => exact s.moved_undone htask hx hlists hfresh hshape hinside hundone
  case task => exact forall_mem_append.mpr ⟨s.task, forall_mem_singleton.mpr htask⟩
  case below => exact forall_mem_append.mpr ⟨s.below, forall_mem_singleton.mpr ⟨x, hx, hlists⟩⟩
  case range => exact forall_mem_append.mpr ⟨s.range, forall_mem_singleton.mpr hrange⟩
  case shape => exact s.shape_undone htask hx hlists hfresh hshape hundone
  case inside => exact forall_mem_append.mpr ⟨s.inside, forall_mem_singleton.mpr hinside⟩
  case outermost => exact forall_mem_append.mpr ⟨s.outermost, forall_mem_singleton.mpr houtermost⟩
  case order => exact pairwise_append.mpr ⟨s.order, pairwise_singleton .., by simpa using hfresh⟩

end Undone

theorem undo (s : Standing source woven scripts h program w done) (htask : t ∈ woven.script.tasks)
    (hx : h.Below program x) (hlists : h.Lists x n) (hrange : h.range n = t.range)
    (houtermost : h.Outermost program t.range n) (hfresh : ∀ m ∈ done, ¬ h.Below m.node n)
    {tokens tokens' : List Token} {comments comments' : List Comment}
    (hok : t.restore (.ofText source) w n tokens comments = .ok (w', tokens', comments')) :
    ∃ targets, Standing source woven scripts h program w' (done ++ [⟨t, n, targets⟩]) ∧
      ∃ a : Arena, a.size = w.arena.size ∧ (∀ y, a.kind y = w.arena.kind y) ∧ t.Shape a n targets ∧
        w'.scopes = t.reconcile a n targets w.scopes := by
  obtain ⟨targets, w1, w2, htgts, hshift, hattach, rfl, -, -⟩ := Task.restore_eq_ok hok
  have hn := hx.tail hlists
  have hshape := Task.targets?_eq_some.mp htgts
  obtain ⟨hinside, hshifted⟩ := s.shifted htask hn hfresh hshape hshift
  have howner : ∀ p ∈ t.fragments.zip targets, p.1.owner < w1.arena.size := by
    intro p hp
    have hlt := s.layout.owner_lt p.1 (mem_taskFragments.mpr ⟨t, htask, (of_mem_zip hp).1⟩)
    have hle := Nat.le_of_lt (Nat.lt_of_le_of_lt (s.host.fresh x hx) (s.host.bounded x hx))
    rw [hshifted.size, s.size]
    exact Nat.lt_of_lt_of_le hlt hle
  have htarget : ∀ p ∈ t.fragments.zip targets, p.2 < w1.arena.size := by
    intro p hp
    rw [hshifted.size, s.size]
    exact s.host.bounded _ (hn.trans (s.within_below hn (hshape.within (of_mem_zip hp).2)).1)
  have hattached := Workbench.attachTargets_attached (by exact howner) (by exact htarget) hattach
  have hself : n ∉ targets := fun hmem => (s.within_below hn (hshape.within hmem)).2 rfl
  have hundone := Workbench.Shifted.undone (m := ⟨t, n, targets⟩) hshifted
    ⟨hattached.size, hattached.kind, hattached.parent, hattached.owner, hattached.visited,
      hattached.range, hattached.loc⟩
    (map_snd_zip (Nat.le_of_eq hshape.length))
    (s.targets_nodup hn hshape (s.layout.ownSlots t htask)) hself (s.parent_eq hx hlists hfresh)
    (s.size ▸ s.host.bounded x hx)
  refine ⟨targets, s.undone htask hx hlists hfresh hshape hinside hundone hrange houtermost,
    w1.arena, hshifted.size, hshifted.kind, hshape.congr fun y _ _ => hshifted.kind y, ?_⟩
  rw [Workbench.attachTargets_scopes hattach, hshifted.scopes]

end Standing

end Loom
