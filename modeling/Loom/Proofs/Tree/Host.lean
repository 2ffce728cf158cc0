import Loom.Proofs.Chain
import Loom.Proofs.Tree.Arena

/-!
Parsed scripts: the nodes that a script parser adds to an arena of markup nodes.

They form a tree, and the range of a node lies in that of its parent. So two nodes either share no
node below them or one is below the other, and the walk down from a node reaches everything below
it.
-/

namespace Loom

open Arena

/-- The nodes below `program` are a tree: each is listed once, by its parent, and the program has
none. -/
structure Arena.Rooted (h : Arena) (program : NodeId) : Prop where
  top : h.parent program = none
  bounded : ∀ x, h.Below program x → x < h.size
  nodup : ∀ x, h.Below program x → (h.children x).Nodup
  parent : ∀ x c, h.Below program x → h.Lists x c → h.parent c = some x

/-- The nodes of a parsed script, over the markup nodes of `base`. -/
structure HostTree (base h : Arena) (program : NodeId) : Prop extends h.Rooted program where
  kept : ∀ i, i < base.size → h.node i = base.node i
  fresh : ∀ x, h.Below program x → base.size ≤ x
  ordered : ∀ x, h.Below program x → (h.range x).start ≤ (h.range x).stop
  nested : ∀ x c, h.Below program x → h.Lists x c → (h.range x).contains (h.range c)

/-- Nodes that hold all their children hold everything below them. -/
theorem Arena.mem_of_below {h : Arena} {x y : NodeId} {nodes : List NodeId} (hx : x ∈ nodes)
    (hclosed : ∀ x ∈ nodes, ∀ c ∈ h.children x, c ∈ nodes) (hy : h.Below x y) : y ∈ nodes := by
  induction hy with
  | refl => exact hx
  | tail _ hlists ih => exact hclosed _ ih _ hlists

namespace Arena.Rooted

variable {h : Arena} {program x y z c c' : NodeId}

variable (ht : h.Rooted program)

include ht

theorem climb (hx : h.Below program x) (hxy : h.Below x y) :
    Relation.ReflTransGen (Up h.parent) y x := by
  induction hxy with
  | refl => exact .refl
  | tail hxz hzy ih => exact .head (ht.parent _ _ (hx.trans hxz) hzy) ih

/-- The parent of a node lists it. -/
theorem lists_of_up (hy : h.Below program y) (hu : Up h.parent y x) :
    h.Below program x ∧ h.Lists x y := by
  cases hy with
  | refl =>
    rw [Up, ht.top] at hu
    cases hu
  | tail hz hzy =>
    cases up_unique h.parent hu (ht.parent _ _ hz hzy)
    exact ⟨hz, hzy⟩

theorem below_of_climb (hy : h.Below program y) (hyx : Relation.ReflTransGen (Up h.parent) y x) :
    h.Below program x ∧ h.Below x y := by
  induction hyx with
  | refl => exact ⟨hy, .refl⟩
  | tail _ hu ih =>
    obtain ⟨hx, hlists⟩ := ht.lists_of_up ih.1 hu
    exact ⟨hx, .head hlists ih.2⟩

section

variable (hx : h.Below program x)

include hx

/-- The nodes from a node up to the program. -/
theorem chain : ∃ l, Chain h.parent x l ∧ ∀ y ∈ l, y < h.size := by
  induction hx with
  | refl => exact ⟨_, .top ht.top, by simpa using ht.bounded _ .refl⟩
  | tail hy hyx ih =>
    obtain ⟨l, hl, hlt⟩ := ih
    refine ⟨_, .step (ht.parent _ _ hy hyx) hl, ?_⟩
    rw [List.forall_mem_cons]
    exact ⟨ht.bounded _ (hy.tail hyx), hlt⟩

/-- Of two nodes above the same node, one is above the other. -/
theorem comparable (hy : h.Below program y) (hxz : h.Below x z) (hyz : h.Below y z) :
    h.Below x y ∨ h.Below y x := by
  rcases Relation.ReflTransGen.total_of_right_unique (up_unique _) (ht.climb hx hxz)
    (ht.climb hy hyz) with hup | hup
  · exact .inr (ht.below_of_climb hx hup).2
  · exact .inl (ht.below_of_climb hy hup).2

theorem antisymm (hxy : h.Below x y) (hyx : h.Below y x) : x = y := by
  obtain ⟨l, hl, -⟩ := ht.chain hx
  exact hl.antisymm (ht.climb (hx.trans hxy) hyx) (ht.climb hx hxy)

/-- A node strictly above another one is above its parent. -/
theorem below_parent (hy : h.Below program y) (hlists : h.Lists y c) (hxc : h.Below x c)
    (hne : x ≠ c) : h.Below x y := by
  rcases (ht.climb hx hxc).cases_head with rfl | ⟨z, hz, hzx⟩
  · exact absurd rfl hne
  · cases up_unique h.parent hz (ht.parent y c hy hlists)
    exact (ht.below_of_climb hy hzx).2

theorem not_below_parent (hlists : h.Lists x c) : ¬ h.Below c x := by
  intro hcx
  obtain ⟨l, hl, -⟩ := ht.chain hx
  have hup := ht.parent x c hx hlists
  obtain rfl : x = c := ht.antisymm hx (.single hlists) hcx
  exact hl.not_above_itself (.single hup)

/-- Nothing is below two children of a node. -/
theorem eq_of_below_siblings (hc : h.Lists x c) (hc' : h.Lists x c') (hz : h.Below c z)
    (hz' : h.Below c' z) : c = c' := by
  by_contra hne
  rcases ht.comparable (hx.tail hc) (hx.tail hc') hz hz' with hbelow | hbelow
  · exact ht.not_below_parent hx hc (ht.below_parent (hx.tail hc) hx hc' hbelow hne)
  · exact ht.not_below_parent hx hc' (ht.below_parent (hx.tail hc') hx hc hbelow (Ne.symm hne))

end

/-- The walk down in an arena that has no other links reaches what is below there, if it can go deep
enough. -/
theorem mem_descendantsWithin {a : Arena} {fuel : Nat} {lx ly : List NodeId}
    (hsub : ∀ y c, h.Below x y → a.Lists y c → h.Lists y c) (hx : h.Below program x)
    (hxy : a.Below x y)
    (hlx : Chain h.parent x lx) (hly : Chain h.parent y ly) (hfuel : ly.length < lx.length + fuel) :
    y ∈ a.descendantsWithin fuel x := by
  induction fuel generalizing x lx with
  | zero =>
    -- The chain of a node below is at least as long.
    have hup := ht.climb hx (below_of_lists (hsub) hxy)
    obtain ⟨l, hl, hsuffix⟩ := hly.suffix (hly.mem_iff.mpr hup)
    rw [hl.unique hlx] at hsuffix
    exact absurd hfuel (Nat.not_lt.mpr hsuffix.length_le)
  | succ fuel ih =>
    rw [descendantsWithin, List.mem_cons, List.mem_flatMap]
    rcases hxy.cases_head with rfl | ⟨c, hc, hcy⟩
    · exact .inl rfl
    · have hlists := hsub x c .refl hc
      refine .inr ⟨c, hc, ih (fun z d hz => hsub z d (.head hlists hz)) (hx.tail hlists) hcy
        (.step (ht.parent x c hx hlists) hlx) ?_⟩
      rw [List.length_cons]
      omega

theorem mem_descendants_of_below {a : Arena} (hsize : a.size = h.size)
    (hsub : ∀ y c, h.Below x y → a.Lists y c → h.Lists y c) (hx : h.Below program x)
    (hxy : a.Below x y) : y ∈ a.descendants x := by
  obtain ⟨lx, hlx, hltx⟩ := ht.chain hx
  obtain ⟨ly, hly, hlty⟩ := ht.chain (hx.trans (below_of_lists (hsub) hxy))
  refine ht.mem_descendantsWithin hsub hx hxy hlx hly ?_
  have hle := hly.length_le hlty
  have hpos := List.length_pos_of_mem hlx.head_mem
  omega

theorem mem_descendants {a : Arena} (hsize : a.size = h.size)
    (hsame : ∀ y, h.Below x y → a.kind y = h.kind y)
    (hx : h.Below program x) : y ∈ a.descendants x ↔ h.Below x y := by
  have hlists : ∀ z c, h.Below x z → (a.Lists z c ↔ h.Lists z c) := fun z c hz => by
    rw [lists_congr (hsame z hz)]
  constructor
  · intro hy
    exact below_of_lists (fun z c hz hc => (hlists z c hz).mp hc) (below_of_mem_within hy)
  · intro hxy
    refine ht.mem_descendants_of_below hsize (fun z c hz hc => (hlists z c hz).mp hc) hx ?_
    induction hxy with
    | refl => exact .refl
    | tail hxz hzy ih => exact ih.tail ((hlists _ _ hxz).mpr hzy)

end Arena.Rooted

namespace HostTree

/-- To have a parsed script, it is enough to check some nodes that hold the program and all their
children. -/
theorem of_nodes {base h : Arena} {program : NodeId} (nodes : List NodeId) (hprog : program ∈ nodes)
    (hkept : ∀ i, i < base.size → h.node i = base.node i) (htop : h.parent program = none)
    (hnodes : ∀ x ∈ nodes, base.size ≤ x ∧ x < h.size ∧ (h.range x).start ≤ (h.range x).stop ∧
      (h.children x).Nodup ∧ ∀ c ∈ h.children x, c ∈ nodes ∧ h.parent c = some x ∧
        (h.range x).contains (h.range c) = true) : HostTree base h program := by
  have hmem : ∀ x, h.Below program x → x ∈ nodes := fun x hx =>
    mem_of_below hprog (fun y hy c hc => ((hnodes y hy).2.2.2.2 c hc).1) hx
  exact
    { kept := hkept
      top := htop
      fresh := fun x hx => (hnodes x (hmem x hx)).1
      bounded := fun x hx => (hnodes x (hmem x hx)).2.1
      ordered := fun x hx => (hnodes x (hmem x hx)).2.2.1
      nodup := fun x hx => (hnodes x (hmem x hx)).2.2.2.1
      parent := fun x c hx hc => ((hnodes x (hmem x hx)).2.2.2.2 c hc).2.1
      nested := fun x c hx hc => ((hnodes x (hmem x hx)).2.2.2.2 c hc).2.2 }

variable {base h : Arena} {program x y : NodeId}

theorem contains_of_below (ht : HostTree base h program) (hx : h.Below program x)
    (hxy : h.Below x y) :
    (h.range x).start ≤ (h.range y).start ∧ (h.range y).stop ≤ (h.range x).stop := by
  induction hxy with
  | refl => exact ⟨Nat.le_refl _, Nat.le_refl _⟩
  | tail hxz hzy ih =>
    have hnested := ht.nested _ _ (hx.trans hxz) hzy
    rw [Range.contains_iff] at hnested
    exact ⟨Nat.le_trans ih.1 hnested.1, Nat.le_trans hnested.2 ih.2⟩

end HostTree

end Loom
