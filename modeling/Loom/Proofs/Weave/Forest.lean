import Loom.Proofs.Tree.Arena
import Loom.Weave

/-!
Forests: arenas whose nodes form trees and have nothing in their slots for script nodes.

A node is loose from its allocation until it is put under another one. Two edits keep a forest: a
new node takes the loose nodes that it lists, and a loose node is put under a node that is not
loose.
-/

open List

namespace Loom

open Arena Option

/-- The nodes of an arena form trees with the tops `tops`. -/
structure Forest (a : Arena) (tops : List NodeId) : Prop where
  top_lt : ∀ t ∈ tops, t < a.size
  top : ∀ t ∈ tops, a.parent t = none
  tops_nodup : tops.Nodup
  child_lt : ∀ x c, x < a.size → a.Lists x c → c < a.size
  parent : ∀ x c, x < a.size → a.Lists x c → a.parent c = some x
  nodup : ∀ x, x < a.size → (a.kind x).childIds.Nodup
  covered : ∀ x, x < a.size → ∃ t ∈ tops, a.Below t x
  blank : ∀ x, x < a.size → ∀ field, (a.kind x).held field = []

namespace Forest

variable {a a' : Arena} {tops : List NodeId} {x y : NodeId}

theorem empty : Forest .empty [] := by
  constructor <;> simp [Arena.empty, Arena.size]

theorem lt_of_below (h : Forest a tops) (hx : x < a.size) (hxy : a.Below x y) : y < a.size := by
  induction hxy with
  | refl => exact hx
  | tail _ hlists ih => exact h.child_lt _ _ ih hlists

/-- What is below a node stays below it when links are only added. -/
theorem below_mono (h : Forest a tops) (hx : x < a.size) (hxy : a.Below x y)
    (hkept : ∀ z c, z < a.size → a.Lists z c → a'.Lists z c) : a'.Below x y := by
  induction hxy with
  | refl => exact .refl
  | tail hxz hlists ih => exact ih.tail (hkept _ _ (h.lt_of_below hx hxz) hlists)

/-- A new node takes the loose nodes that it lists. -/
theorem alloc {k : Kind} (r : Range) (coords : Coordinates) (h : Forest a (tops ++ k.childIds))
    (hblank : ∀ field, k.held field = []) : Forest (a.allocAt k r coords).2 (tops ++ [a.size]) := by
  have hlt : ∀ c ∈ k.childIds, c < a.size := fun c hc => h.top_lt c (mem_append_right _ hc)
  have hnodup := nodup_append.mp h.tops_nodup
  have hlists : ∀ y c, (a.allocAt k r coords).2.Lists y c ↔
      if y = a.size then c ∈ k.childIds else a.Lists y c := by
    intro y c
    rw [Arena.Lists, mem_children, kind_allocAt]
    split
    · rfl
    · rw [Arena.Lists, mem_children]
  have hold : ∀ y, y ≠ a.size → y < (a.allocAt k r coords).2.size → y < a.size := by
    intro y hne hy
    rw [size_allocAt] at hy
    omega
  have hkept : ∀ z c, z < a.size → a.Lists z c → (a.allocAt k r coords).2.Lists z c := by
    intro z c hz hc
    rw [hlists, if_neg (Nat.ne_of_lt hz)]
    exact hc
  constructor
  case top_lt =>
    rw [size_allocAt]
    refine forall_mem_append.mpr ⟨fun t ht => ?_, by simp⟩
    exact Nat.lt_succ_of_lt (h.top_lt t (mem_append_left _ ht))
  case top =>
    refine forall_mem_append.mpr ⟨fun t ht => ?_, ?_⟩
    · have hout : t ∉ k.childIds := fun hmem => hnodup.2.2 t ht t hmem rfl
      have hne := Nat.ne_of_lt (h.top_lt t (mem_append_left _ ht))
      rw [parent_allocAt, if_neg fun hmem => hout hmem.1, if_neg hne]
      exact h.top t (mem_append_left _ ht)
    · rw [forall_mem_singleton, parent_allocAt, if_neg fun hmem => Nat.lt_irrefl _ (hlt _ hmem.1),
        if_pos rfl]
  case tops_nodup =>
    rw [← concat_eq_append]
    exact .concat (fun ht => Nat.lt_irrefl _ (h.top_lt _ (mem_append_left _ ht))) hnodup.1
  case child_lt =>
    intro y c hy hc
    rw [hlists] at hc
    rw [size_allocAt]
    split at hc
    · exact Nat.lt_succ_of_lt (hlt c hc)
    · rename_i hne
      exact Nat.lt_succ_of_lt (h.child_lt y c (hold y hne hy) hc)
  case parent =>
    intro y c hy hc
    rw [hlists] at hc
    split at hc
    · rename_i heq
      rw [parent_allocAt, if_pos ⟨hc, Nat.le_of_lt (hlt c hc)⟩, heq]
    · rename_i hne
      have hparent := h.parent y c (hold y hne hy) hc
      -- A loose node has no parent, so this one is not loose.
      have hout : c ∉ k.childIds := by
        intro hmem
        rw [h.top c (mem_append_right _ hmem)] at hparent
        cases hparent
      have hlt := Nat.ne_of_lt (h.child_lt y c (hold y hne hy) hc)
      rw [parent_allocAt, if_neg fun hmem => hout hmem.1, if_neg hlt, hparent]
  case nodup =>
    intro y hy
    rw [kind_allocAt]
    split
    · exact hnodup.2.1
    · rename_i hne
      exact h.nodup y (hold y hne hy)
  case covered =>
    intro y hy
    by_cases hne : y = a.size
    · exact ⟨a.size, by simp, hne ▸ .refl⟩
    obtain ⟨t, ht, hbelow⟩ := h.covered y (hold y hne hy)
    have hbelow := h.below_mono (h.top_lt t ht) hbelow hkept
    rcases mem_append.mp ht with ht | ht
    · exact ⟨t, mem_append_left _ ht, hbelow⟩
    · refine ⟨a.size, by simp, .head ?_ hbelow⟩
      rw [hlists, if_pos rfl]
      exact ht
  case blank =>
    intro y hy field
    rw [kind_allocAt]
    split
    · exact hblank field
    · rename_i hne
      exact h.blank y (hold y hne hy) field

/-- A loose node is put under a node that is not loose. -/
theorem adopt {p c : NodeId} {k : Kind} (h : Forest a (tops ++ [c])) (hp : p < a.size)
    (hcovered : ∃ t ∈ tops, a.Below t p) (hkids : k.childIds.Perm ((a.kind p).childIds ++ [c]))
    (hheld : ∀ field, k.held field = (a.kind p).held field) :
    Forest ((a.setKind p k).setParent c (some p)) tops := by
  have hc : c < a.size := h.top_lt c (by simp)
  have hloose : a.parent c = none := h.top c (by simp)
  have hnodup := nodup_append.mp h.tops_nodup
  have hkind : ∀ y, ((a.setKind p k).setParent c (some p)).kind y = if y = p then k
      else a.kind y := by
    intro y
    rw [kind_setParent, kind_setKind]
    simp only [hp, and_true]
  have hparent : ∀ y, ((a.setKind p k).setParent c (some p)).parent y =
      if y = c then some p else a.parent y := by
    intro y
    rw [parent_setParent, size_setKind, parent_setKind]
    simp only [hc, and_true]
  have hlists : ∀ y z, ((a.setKind p k).setParent c (some p)).Lists y z ↔
      a.Lists y z ∨ (y = p ∧ z = c) := by
    intro y z
    rw [Arena.Lists, mem_children, hkind, Arena.Lists, mem_children]
    split
    · rename_i heq
      rw [hkids.mem_iff, heq]
      simp
    · rename_i hne
      simp [hne]
  have hkept : ∀ y z, y < a.size → a.Lists y z → ((a.setKind p k).setParent c (some p)).Lists y z :=
    fun y z _ hyz => (hlists y z).mpr (.inl hyz)
  have hsize : ((a.setKind p k).setParent c (some p)).size = a.size := by
    rw [size_setParent, size_setKind]
  -- No node lists the loose one yet.
  have hunlisted : ∀ y, y < a.size → ¬ a.Lists y c := by
    intro y hy hyc
    have hup := h.parent y c hy hyc
    rw [hloose] at hup
    cases hup
  constructor
  case top_lt =>
    intro t ht
    rw [hsize]
    exact h.top_lt t (mem_append_left _ ht)
  case top =>
    intro t ht
    have hne : t ≠ c := hnodup.2.2 t ht c (mem_singleton_self c)
    rw [hparent, if_neg hne]
    exact h.top t (mem_append_left _ ht)
  case tops_nodup => exact hnodup.1
  case child_lt =>
    intro y z hy hz
    rw [hsize] at hy ⊢
    rcases (hlists y z).mp hz with hz | ⟨-, rfl⟩
    · exact h.child_lt y z hy hz
    · exact hc
  case parent =>
    intro y z hy hz
    rw [hsize] at hy
    rw [hparent]
    rcases (hlists y z).mp hz with hz | ⟨rfl, rfl⟩
    · have hne : z ≠ c := fun heq => hunlisted y hy (heq ▸ hz)
      rw [if_neg hne]
      exact h.parent y z hy hz
    · exact if_pos rfl
  case nodup =>
    intro y hy
    rw [hsize] at hy
    rw [hkind]
    split
    · rw [hkids.nodup_iff, ← concat_eq_append]
      exact .concat (fun hz => hunlisted p hp (mem_children.mpr hz)) (h.nodup p hp)
    · exact h.nodup y hy
  case covered =>
    intro y hy
    rw [hsize] at hy
    obtain ⟨t, ht, hbelow⟩ := h.covered y hy
    have hbelow := h.below_mono (h.top_lt t ht) hbelow hkept
    rcases mem_append.mp ht with ht | ht
    · exact ⟨t, ht, hbelow⟩
    · obtain rfl := mem_singleton.mp ht
      obtain ⟨t', ht', hp'⟩ := hcovered
      have hp' := h.below_mono (h.top_lt t' (mem_append_left _ ht')) hp' hkept
      exact ⟨t', ht', (hp'.tail ((hlists p t).mpr (.inr ⟨rfl, rfl⟩))).trans hbelow⟩
  case blank =>
    intro y hy field
    rw [hsize] at hy
    rw [hkind]
    split
    · rw [hheld, h.blank p hp]
    · exact h.blank y hy field

theorem parent_of_lists (h : Forest a tops) (hlists : a.Lists x y) : a.parent y = some x :=
  h.parent x y (lt_size_of_mem_childIds (mem_children.mp hlists)) hlists

/-- A node is a top, or its parent lists it. -/
theorem top_or_lists (h : Forest a tops) (hx : x < a.size) : x ∈ tops ∨ ∃ y, a.Lists y x := by
  obtain ⟨t, ht, hbelow⟩ := h.covered x hx
  rcases hbelow.cases_tail with rfl | ⟨y, -, hlists⟩
  · exact .inl ht
  · exact .inr ⟨y, hlists⟩

theorem parent_eq_some_iff (h : Forest a tops) (hx : x < a.size) :
    a.parent x = some y ↔ a.Lists y x := by
  refine ⟨fun hparent => ?_, h.parent_of_lists⟩
  rcases h.top_or_lists hx with htop | ⟨z, hlists⟩
  · rw [h.top x htop] at hparent
    cases hparent
  · rw [h.parent_of_lists hlists] at hparent
    exact some.inj hparent ▸ hlists

theorem parent_eq_none_iff (h : Forest a tops) (hx : x < a.size) :
    a.parent x = none ↔ x ∈ tops := by
  refine ⟨fun hparent => ?_, h.top x⟩
  rcases h.top_or_lists hx with htop | ⟨z, hlists⟩
  · exact htop
  · rw [h.parent_of_lists hlists] at hparent
    cases hparent

end Forest

section RootPath

variable {a : Arena} {tops : List NodeId} {x : NodeId}

/-- A path of child links from one of the roots to a node. -/
inductive Arena.RootPath (a : Arena) (roots : List NodeId) : List NodeId → NodeId → Prop
  | root {x : NodeId} (h : x ∈ roots) : a.RootPath roots [x] x
  | child {path : List NodeId} {x c : NodeId} (h : a.RootPath roots path x) (hlists : a.Lists x c) :
    a.RootPath roots (path ++ [c]) c

theorem Forest.rootPath_unique (h : Forest a tops) {path path' : List NodeId}
    (hpath : a.RootPath tops path x) (hpath' : a.RootPath tops path' x) : path = path' := by
  induction hpath generalizing path' with
  | root hx =>
    cases hpath' with
    | root => rfl
    | child _ hlists => cases (h.top _ hx).symm.trans (h.parent_of_lists hlists)
  | child _ hlists ih =>
    cases hpath' with
    | root hx => cases (h.top _ hx).symm.trans (h.parent_of_lists hlists)
    | child hrest hlists' =>
      obtain rfl := some.inj ((h.parent_of_lists hlists).symm.trans (h.parent_of_lists hlists'))
      rw [ih hrest]

theorem Forest.existsUnique_rootPath (h : Forest a tops) (hx : x < a.size) :
    ∃! path, a.RootPath tops path x := by
  obtain ⟨t, ht, hbelow⟩ := h.covered x hx
  obtain ⟨path, hpath⟩ : ∃ path, a.RootPath tops path x := by
    induction hbelow with
    | refl => exact ⟨[t], .root ht⟩
    | tail _ hlists ih =>
      obtain ⟨path, hpath⟩ := ih (lt_size_of_mem_childIds (mem_children.mp hlists))
      exact ⟨_, hpath.child hlists⟩
  exact ⟨path, hpath, fun path' hpath' => h.rootPath_unique hpath' hpath⟩

end RootPath

namespace Kind

variable {k k' : Kind} {c : NodeId} {role role' : BranchRole}

theorem childIds_pushChild (h : k.pushChild? c = some k') :
    k'.childIds.Perm (k.childIds ++ [c]) := by
  unfold pushChild? at h
  split at h <;> cases h <;>
    simp only [childIds, fields, flatMap_cons, flatMap_nil, Field.nodeIds, append_nil,
      nil_append, append_assoc] <;>
    grind

/-- Everything in the slots of a kind. -/
def heldNodes (k : Kind) : List NodeId := SlotField.all.flatMap fun field => k.held field

theorem held_eq_nil (h : k.heldNodes = []) (field : SlotField) : k.held field = [] := by
  refine flatMap_eq_nil_iff.mp h field ?_
  cases field <;> decide

theorem held_pushChild (h : k.pushChild? c = some k') (field : SlotField) :
    k'.held field = k.held field := by
  unfold pushChild? at h
  split at h <;> cases h <;> cases field <;> rfl

/-- Whether a branch of a role can be put into the kind: there is a place for it, which is empty. -/
def BranchFree : BranchRole → Kind → Prop
  | .otherwise, .markupIfBlock _ _ _ none => True
  | .otherwise, .markupEachBlock _ _ _ _ _ none => True
  | .pending, .markupAwaitBlock _ none _ _ => True
  | .fulfilled, .markupAwaitBlock _ _ none _ => True
  | .rejected, .markupAwaitBlock _ _ _ none => True
  | _, _ => False

theorem childIds_setBranch (branch : NodeId) (h : k.BranchFree role) :
    (k.setBranch branch role).childIds.Perm (k.childIds ++ [branch]) := by
  unfold BranchFree at h
  split at h
  case h_6 => cases h
  all_goals
    simp only [setBranch, childIds, fields, flatMap_cons, flatMap_nil, Field.nodeIds,
      append_nil, append_assoc, toList_none, toList_some, nil_append]
    grind

theorem held_setBranch (branch : NodeId) (role : BranchRole) (k : Kind) (field : SlotField) :
    (k.setBranch branch role).held field = k.held field := by
  unfold setBranch
  split <;> cases field <;> rfl

theorem BranchFree.pushChild (hk : k.BranchFree role) (h : k.pushChild? c = some k') :
    k'.BranchFree role := by
  unfold pushChild? at h
  split at h <;> cases h <;> revert hk <;> unfold BranchFree <;> split <;> simp_all

theorem BranchFree.setBranch {branch : NodeId} (hk : k.BranchFree role) (hne : role' ≠ role) :
    (k.setBranch branch role').BranchFree role := by
  revert hk
  unfold BranchFree
  split <;> cases role' <;> simp_all [Kind.setBranch]

/-- Whether a node can be put under one of the kind: as a branch, or after its content. -/
def HasRoom (k : Kind) : Option BranchRole → Prop
  | none => ∀ c, (k.pushChild? c).isSome = true
  | some role => k.BranchFree role

/-- The kind of a node after another one was put under it. -/
def put (c : NodeId) : Option BranchRole → Kind → Kind
  | none, k => (k.pushChild? c).getD k
  | some role, k => k.setBranch c role

theorem HasRoom.pushChild? (h : k.HasRoom none) (c : NodeId) :
    k.pushChild? c = some (k.put c none) := by
  obtain ⟨k', hk'⟩ := isSome_iff_exists.mp (h c)
  rw [put, hk', getD_some]

theorem HasRoom.childIds_put {place : Option BranchRole} (h : k.HasRoom place) (c : NodeId) :
    (k.put c place).childIds.Perm (k.childIds ++ [c]) := by
  cases place with
  | none => exact childIds_pushChild (h.pushChild? c)
  | some role => exact childIds_setBranch c h

theorem HasRoom.held_put {place : Option BranchRole} (h : k.HasRoom place) (c : NodeId)
    (field : SlotField) : (k.put c place).held field = k.held field := by
  cases place with
  | none => exact held_pushChild (h.pushChild? c) field
  | some role => exact held_setBranch c role k field

/-- Content leaves room for more of it and for branches, a branch for others. -/
theorem HasRoom.put {place place' : Option BranchRole} (h : k.HasRoom place) (h' : k.HasRoom place')
    (hne : place = none ∨ place ≠ place') (c : NodeId) : (k.put c place).HasRoom place' := by
  cases place with
  | none =>
    have hpush := h.pushChild? c
    cases place' with
    | none =>
      unfold Kind.pushChild? at hpush
      split at hpush <;> cases hpush <;> intro c <;> rfl
    | some role => exact BranchFree.pushChild h' hpush
  | some role =>
    cases place' with
    | none =>
      intro c'
      have hroom := h' c'
      show ((k.setBranch c role).pushChild? c').isSome = true
      unfold setBranch
      split <;> exact hroom
    | some role' => exact BranchFree.setBranch h' fun heq => hne.elim nofun fun h => h (congrArg some heq)

end Kind

/-- Older nodes are kept, other than the kind of `touched`. -/
structure Kept (touched : Option NodeId) (a a' : Arena) : Prop where
  size : a.size ≤ a'.size
  kind : ∀ i, i < a.size → some i ≠ touched → a'.kind i = a.kind i
  range : ∀ i, i < a.size → a'.range i = a.range i

namespace Kept

variable {touched : Option NodeId} {a a1 a' : Arena} {id : NodeId}

theorem refl (touched : Option NodeId) (a : Arena) : Kept touched a a :=
  ⟨Nat.le_refl _, fun _ _ _ => rfl, fun _ _ => rfl⟩

theorem trans (h : Kept touched a a1) (h' : Kept touched a1 a') : Kept touched a a' := by
  refine ⟨Nat.le_trans h.size h'.size, fun i hi hne => ?_, fun i hi => ?_⟩
  · rw [h'.kind i (Nat.lt_of_lt_of_le hi h.size) hne, h.kind i hi hne]
  · rw [h'.range i (Nat.lt_of_lt_of_le hi h.size), h.range i hi]

theorem mono (h : Kept none a a') : Kept touched a a' :=
  ⟨h.size, fun i hi _ => h.kind i hi nofun, h.range⟩

/-- A change of a new node leaves the older ones alone. -/
theorem nest (h : Kept touched a a1) (h' : Kept (some id) a1 a') (hid : a.size ≤ id) :
    Kept touched a a' := by
  refine ⟨Nat.le_trans h.size h'.size, fun i hi hne => ?_, fun i hi => ?_⟩
  · have hsome : some i ≠ some id := fun heq => Nat.not_lt_of_le hid (some.inj heq ▸ hi)
    rw [h'.kind i (Nat.lt_of_lt_of_le hi h.size) hsome, h.kind i hi hne]
  · rw [h'.range i (Nat.lt_of_lt_of_le hi h.size), h.range i hi]

theorem below {tops : List NodeId} {x y : NodeId} (h : Kept none a a') (hforest : Forest a tops)
    (hx : x < a.size) (hxy : a.Below x y) : a'.Below x y := by
  refine hforest.below_mono hx hxy fun z c hz hc => ?_
  rw [lists_congr (h.kind z hz (by simp))]
  exact hc

theorem allocAt (k : Kind) (r : Range) (coords : Coordinates) :
    Kept none a (a.allocAt k r coords).2 := by
  refine ⟨Nat.le_of_lt (by rw [size_allocAt]; exact Nat.lt_succ_self _), fun i hi _ => ?_,
    fun i hi => ?_⟩
  · exact kind_allocAt.trans (if_neg (Nat.ne_of_lt hi))
  · rw [range_allocAt, if_neg (Nat.ne_of_lt hi)]

end Kept

end Loom
