import Loom.Proofs.Tree.Slot
import Loom.Tree.Arena
import Mathlib.Logic.Relation

/-!
Arenas, one update at a time: what each update changes of a node, and what it leaves alone.
-/

open List

namespace Loom.Arena

open Kind

variable {old new y parent child x id i : NodeId} {f : Node → Node} {r : Range}
  {coords : Coordinates} {cs : List NodeId} {p : Option NodeId} {k : Kind} {n : Node} {a' a : Arena}

/-- The location of a node. -/
def loc (a : Arena) (id : NodeId) : Location := (a.node id).loc

/-! Sizes. -/

@[simp] theorem size_modify : (a.modify id f).size = a.size := by
  simp [modify, size]

@[simp] theorem size_setKind (id : NodeId) (k : Kind) : (a.setKind id k).size = a.size :=
  size_modify

@[simp] theorem size_setParent (id : NodeId) (p : Option NodeId) :
    (a.setParent id p).size = a.size := size_modify

@[simp] theorem size_setRange : (a.setRange id r coords).size = a.size := size_modify

/-- What is read of an arena without its parent links stays when nodes get a parent. -/
theorem view_setParents {α : Type} (view : Arena → α) (h : ∀ a c, view (a.setParent c p) = view a) :
    view (cs.foldl (fun a c => a.setParent c p) a) = view a := by
  induction cs generalizing a with
  | nil => rfl
  | cons c cs ih => rw [foldl_cons, ih, h]

theorem size_alloc : (a.alloc k r).2.size = a.size + 1 := by
  unfold alloc
  rw [view_setParents size fun _ c => size_setParent c _]
  simp [size]

/-! Nodes. -/

theorem node_modify :
    (a.modify id f).node i = if i = id ∧ id < a.size then f (a.node id) else a.node i := by
  unfold modify node size
  simp only [Array.getD_eq_getD_getElem?, Array.getElem?_modify]
  by_cases h : id = i
  · subst h
    by_cases hi : id < a.nodes.size <;> simp [hi]
  · simp [h, Ne.symm h]

/-- An update that keeps a field of its node keeps it in all nodes. -/
theorem node_modify_field {β : Type} (p : Node → β) (f : Node → Node) (hp : ∀ x, p (f x) = p x)
    (id i : NodeId) : p ((a.modify id f).node i) = p (a.node i) := by
  rw [node_modify]
  split
  · rename_i h
    rw [hp, h.1]
  · rfl

/-- Where there is no node, an empty statement is read. -/
theorem lt_size_of_kind (h : a.kind id ≠ .emptyStatement) : id < a.size := by
  by_contra hge
  refine h ?_
  unfold kind node
  rw [Array.getD_eq_getD_getElem?, Array.getElem?_eq_none (Nat.not_lt.mp hge)]
  rfl

theorem identifierName?_eq_some {s : String} :
    a.identifierName? id = some s ↔ a.kind id = .identifier s := by
  unfold identifierName?
  split
  · rename_i name hk
    rw [hk]
    simp
  · rename_i hk
    constructor
    · intro h
      cases h
    · intro h
      exact absurd h (hk s)

theorem kind_setKind : (a.setKind id k).kind i = if i = id ∧ id < a.size then k else a.kind i := by
  unfold kind setKind
  rw [node_modify]
  split <;> rfl

theorem kind_setKind_ne (h : i ≠ id) : (a.setKind id k).kind i = a.kind i := by
  rw [kind_setKind, if_neg fun hi => h hi.1]

@[simp] theorem kind_setParent (id i : NodeId) (p : Option NodeId) :
    (a.setParent id p).kind i = a.kind i :=
  node_modify_field Node.kind ({ · with parent := p }) (fun _ => rfl) id i

@[simp] theorem kind_setRange :
    (a.setRange id r coords).kind i = a.kind i :=
  node_modify_field Node.kind ({ · with range := r, loc := coords.location r }) (fun _ => rfl) id i

@[simp] theorem range_setKind : (a.setKind id k).range i = a.range i :=
  node_modify_field Node.range ({ · with kind := k }) (fun _ => rfl) id i

@[simp] theorem range_setParent : (a.setParent id p).range i = a.range i :=
  node_modify_field Node.range ({ · with parent := p }) (fun _ => rfl) id i

@[simp] theorem loc_setKind : (a.setKind id k).loc i = a.loc i :=
  node_modify_field Node.loc ({ · with kind := k }) (fun _ => rfl) id i

@[simp] theorem loc_setParent (id i : NodeId) (p : Option NodeId) :
    (a.setParent id p).loc i = a.loc i :=
  node_modify_field Node.loc ({ · with parent := p }) (fun _ => rfl) id i

@[simp] theorem parent_setKind : (a.setKind id k).parent i = a.parent i :=
  node_modify_field Node.parent ({ · with kind := k }) (fun _ => rfl) id i

@[simp] theorem parent_setRange :
    (a.setRange id r coords).parent i = a.parent i :=
  node_modify_field Node.parent ({ · with range := r, loc := coords.location r }) (fun _ => rfl) id
    i

theorem parent_setParent :
    (a.setParent id p).parent i = if i = id ∧ id < a.size then p else a.parent i := by
  unfold parent setParent
  rw [node_modify]
  split <;> rfl

theorem parent_setParent_ne (p : Option NodeId) (h : i ≠ id) :
    (a.setParent id p).parent i = a.parent i := by
  unfold parent setParent
  rw [node_modify, if_neg fun hi => h hi.1]

theorem range_setRange (hid : id < a.size) (i : NodeId) (r : Range) (coords : Coordinates) :
    (a.setRange id r coords).range i = if i = id then r else a.range i := by
  unfold range setRange
  rw [node_modify]
  split <;> simp_all

theorem loc_setRange (hid : id < a.size) (i : NodeId) (r : Range) (coords : Coordinates) :
    (a.setRange id r coords).loc i = if i = id then coords.location r else a.loc i := by
  unfold loc setRange
  rw [node_modify]
  split <;> simp_all

theorem range_setRange_ne (h : i ≠ id) : (a.setRange id r coords).range i = a.range i := by
  unfold range setRange
  rw [node_modify, if_neg fun hi => h hi.1]

theorem loc_setRange_ne (h : i ≠ id) : (a.setRange id r coords).loc i = a.loc i := by
  unfold loc setRange
  rw [node_modify, if_neg fun hi => h hi.1]

/-! New nodes. -/

theorem parent_setParents : (cs.foldl (fun a c => a.setParent c p) a).parent i =
    if i ∈ cs ∧ i < a.size then p else a.parent i := by
  induction cs generalizing a with
  | nil => simp
  | cons c cs ih =>
    rw [foldl_cons, ih, parent_setParent]
    by_cases hc : i = c
    · subst hc
      by_cases hi : i < a.size <;> simp [hi]
    · simp [hc]

theorem node_push : Arena.node ⟨a.nodes.push n⟩ i = if i = a.size then n else a.node i := by
  unfold node size
  simp only [Array.getD_eq_getD_getElem?, Array.getElem?_push]
  split <;> rfl

theorem kind_allocAt : (a.allocAt k r coords).2.kind i = if i = a.size then k else a.kind i := by
  unfold allocAt alloc
  rw [kind_setRange, view_setParents (kind · i) fun _ _ => by simp]
  unfold kind
  rw [node_push]
  split <;> rfl

theorem parent_allocAt : (a.allocAt k r coords).2.parent i =
    if i ∈ k.childIds ∧ i ≤ a.size then some a.size else if i = a.size then none
      else a.parent i := by
  unfold allocAt alloc
  rw [parent_setRange, parent_setParents]
  have hsize : Arena.size ⟨a.nodes.push ⟨k, r, default, none⟩⟩ = a.size + 1 := by simp [size]
  rw [hsize]
  unfold parent
  rw [node_push]
  simp only [Nat.lt_succ_iff]
  split
  · rfl
  · split <;> rfl

theorem size_allocAt (k : Kind) (r : Range) (coords : Coordinates) :
    (a.allocAt k r coords).2.size = a.size + 1 := by
  unfold allocAt
  rw [size_setRange, size_alloc]

theorem range_allocAt (k : Kind) (r : Range) (coords : Coordinates) (i : NodeId) :
    (a.allocAt k r coords).2.range i = if i = a.size then r else a.range i := by
  have hlt : a.size < (a.alloc k r).2.size := by
    rw [size_alloc]
    exact Nat.lt_succ_self _
  unfold allocAt
  dsimp only
  rw [show (a.alloc k r).1 = a.size from rfl, range_setRange hlt]
  split
  · rfl
  · unfold alloc
    rw [view_setParents (range · i) fun _ _ => by simp, range, node_push, if_neg ‹_›]
    rfl

theorem node_setParents {cs : List NodeId} (hout : i ∉ cs) (p : Option NodeId) :
    (cs.foldl (fun a c => a.setParent c p) a).node i = a.node i := by
  induction cs generalizing a with
  | nil => rfl
  | cons c cs ih =>
    rw [mem_cons, not_or] at hout
    rw [foldl_cons, ih hout.2, setParent, node_modify, if_neg fun hi => hout.1 hi.1]

/-- A node that gets no new parent stays as it is. -/
theorem node_allocAt {k : Kind} (hi : i < a.size) (hout : i ∉ k.childIds) (r : Range)
    (coords : Coordinates) : (a.allocAt k r coords).2.node i = a.node i := by
  unfold allocAt alloc
  dsimp only
  rw [setRange, node_modify, if_neg fun heq => Nat.ne_of_lt hi heq.1, node_setParents hout,
    node_push, if_neg (Nat.ne_of_lt hi)]

/-! Links. -/

theorem kind_removeChild : (a.removeChild parent child).2.kind i =
    if i = parent ∧ parent < a.size then (a.kind parent).drop child else a.kind i := by
  unfold removeChild Kind.drop Kind.canDrop
  dsimp only
  split
  · rw [kind_setParent, kind_setKind]
  · split
    · rename_i h
      rw [h.1]
    · rfl

/-- What stays when a node gets or loses its parent; the parent apart, its kind stays as well. -/
structure Relinked (child : NodeId) (a a' : Arena) : Prop where
  size : a'.size = a.size
  range : ∀ i, a'.range i = a.range i
  loc : ∀ i, a'.loc i = a.loc i
  parent : ∀ i, i ≠ child → a'.parent i = a.parent i

namespace Relinked

theorem refl : Relinked child a a := ⟨rfl, fun _ => rfl, fun _ => rfl, fun _ _ => rfl⟩

theorem link : Relinked child a ((a.setKind id k).setParent child p) :=
  ⟨by simp, by simp, by simp, fun i hi => (parent_setParent_ne p hi).trans parent_setKind⟩

theorem removeChild (parent child : NodeId) : Relinked child a (a.removeChild parent child).2 := by
  unfold Arena.removeChild
  dsimp only
  split
  · exact link
  · exact refl

theorem detach (id : NodeId) : Relinked id a (a.detach id).2 := by
  unfold Arena.detach
  split
  · exact removeChild ..
  · exact refl

theorem pushChild (parent child : NodeId) : Relinked child a (a.pushChild parent child).2 := by
  unfold Arena.pushChild
  split
  · exact link
  · exact refl

end Relinked

/-- A node keeps its parent when that cannot do without it. -/
theorem canDrop_or_parent_detach {p : NodeId} (hp : a.parent id = some p) :
    (a.kind p).canDrop id = true ∨ (a.detach id).2.parent id = a.parent id := by
  unfold detach Kind.canDrop
  rw [hp]
  unfold removeChild
  dsimp only
  split
  · rename_i hcan
    exact .inl hcan
  · exact .inr hp

/-- Taking a node out changes the kind of its parent only. -/
theorem kind_detach {p : NodeId} (hp : a.parent id = some p) (hlt : p < a.size) (i : NodeId) :
    (a.detach id).2.kind i = if i = p then (a.kind p).drop id else a.kind i := by
  unfold detach
  rw [hp]
  rw [kind_removeChild]
  simp only [hlt, and_true]

theorem kind_pushChild_ne {parent : NodeId} (child : NodeId) (h : i ≠ parent) :
    (a.pushChild parent child).2.kind i = a.kind i := by
  unfold pushChild
  split
  · rw [kind_setParent, kind_setKind_ne h]
  · rfl

theorem attach_eq_true {owner : NodeId} {field : SlotField}
    (h : a.attach owner field child = (true, a')) :
    ∃ k, (a.kind owner).attach? child field = some k ∧ a' =
      (a.setKind owner k).setParent child (some owner) := by
  unfold attach at h
  split at h
  · rename_i k hk
    exact ⟨k, hk, (Prod.mk.inj h).2.symm⟩
  · cases h

theorem lt_size_of_mem_childIds (h : child ∈ (a.kind parent).childIds) : parent < a.size := by
  refine lt_size_of_kind fun hkind => ?_
  rw [hkind] at h
  cases h

theorem replaceChild_iff :
    (a.replaceChild parent old new).1 = true ↔ old ∈ (a.kind parent).childIds := by
  unfold replaceChild
  dsimp only
  rw [← childIds_eq]
  split <;> simp_all

theorem childIds_replaceChild (a : Arena) (parent old new : NodeId) :
    ((a.replaceChild parent old new).2.kind parent).childIds =
      (a.kind parent).childIds.map fun c => if c = old then new else c := by
  unfold replaceChild
  dsimp only
  rw [← childIds_eq]
  split
  case isTrue h =>
    have hlt := lt_size_of_mem_childIds (contains_iff_mem.mp h)
    rw [kind_setParent, kind_setParent, kind_setKind, if_pos ⟨rfl, hlt⟩, childIds_replace]
  case isFalse h =>
    have hkeep : ∀ c ∈ (a.kind parent).childIds, (if c = old then new else c) = c := by
      intro c hc
      refine if_neg fun heq => h ?_
      rw [← heq]
      exact contains_iff_mem.mpr hc
    exact ((map_congr_left hkeep).trans (map_id _)).symm

theorem kind_replaceChild_ne (h : i ≠ parent) :
    (a.replaceChild parent old new).2.kind i = a.kind i := by
  unfold replaceChild
  dsimp only
  split
  · rw [kind_setParent, kind_setParent, kind_setKind_ne h]
  · rfl

theorem removeChild_iff :
    (a.removeChild parent child).1 = true ↔ (a.kind parent).canDrop child = true := by
  unfold removeChild Kind.canDrop
  dsimp only
  split <;> simp_all

theorem childIds_removeChild (a : Arena) (parent child : NodeId) :
    ((a.removeChild parent child).2.kind parent).childIds = (a.kind parent).slots.flatMap fun s =>
      if s.isRequired then s.nodeIds else s.nodeIds.filter (· != child) := by
  unfold removeChild
  dsimp only
  split
  case isTrue h =>
    have hlt := lt_size_of_mem_childIds (mem_of_canDrop h)
    rw [kind_setParent, kind_setKind, if_pos ⟨rfl, hlt⟩, childIds_mapSlots]
    exact congrArg (List.flatMap · _) (funext fun s => s.nodeIds_without child)
  case isFalse h =>
    rw [childIds_eq]
    refine flatMap_congr fun s hs => ?_
    split
    case isTrue => rfl
    case isFalse hs' =>
      refine (filter_eq_self.mpr fun c hc => ?_).symm
      rw [bne_iff_ne]
      rintro rfl
      exact h (canDrop_iff.mpr ⟨s, hs, Slot.canRemove_iff_isRequired.mpr ⟨by simpa using hs', hc⟩⟩)

/-- The nodes that are read off a kind are those that can be written, in the same order: an edit
acts on each slot that is read. So a node is replaced wherever it is listed, and taken out wherever
it can be missed. -/
theorem child_views_agree (k : Kind) (a : Arena) (parent old new : NodeId) :
    (k.childIds = k.slotIds ∧ ∀ e, (k.mapSlots e).slots = k.slots.map e.apply) ∧
      (((a.replaceChild parent old new).1 = true ↔ old ∈ (a.kind parent).childIds) ∧
        ((a.replaceChild parent old new).2.kind parent).childIds =
          (a.kind parent).childIds.map (fun c => if c = old then new else c) ∧
        ∀ i ≠ parent, (a.replaceChild parent old new).2.kind i = a.kind i) ∧
      ((a.removeChild parent old).1 = true ↔
          ∃ s ∈ (a.kind parent).slots, s.isRequired = false ∧ old ∈ s.nodeIds) ∧
        ((a.removeChild parent old).2.kind parent).childIds = ((a.kind parent).slots.flatMap fun s =>
          if s.isRequired then s.nodeIds else s.nodeIds.filter (· != old)) ∧
        ∀ i ≠ parent, (a.removeChild parent old).2.kind i = a.kind i := by
  refine ⟨⟨k.childIds_eq, k.slots_mapSlots⟩,
    ⟨replaceChild_iff, a.childIds_replaceChild parent old new, fun i hi => kind_replaceChild_ne hi⟩,
    ?_, a.childIds_removeChild parent old, fun i hi => ?_⟩
  · rw [removeChild_iff, canDrop_iff]
    simp only [Slot.canRemove_iff_isRequired]
  · rw [kind_removeChild, if_neg fun h => hi h.1]

/-! Children and what is below. -/

theorem children_perm (a : Arena) (id : NodeId) : (a.children id).Perm (a.kind id).childIds := by
  unfold children
  split
  · rename_i quasis expressions hkind
    rw [hkind, childIds_eq]
    refine (mergeSort_perm ..).trans (.of_eq ?_)
    simp [slotIds, slots, Slot.nodeIds]
  · exact .refl _

theorem mem_children {c : NodeId} : c ∈ a.children id ↔ c ∈ (a.kind id).childIds :=
  (a.children_perm id).mem_iff

/-- `c` is a child of `x`. -/
def Lists (a : Arena) (x c : NodeId) : Prop := c ∈ a.children x

/-- `y` is `x` or a node below it. -/
def Below (a : Arena) : NodeId → NodeId → Prop := Relation.ReflTransGen a.Lists

theorem lists_congr (h : a'.kind x = a.kind x) : a'.Lists x = a.Lists x := by
  funext c
  unfold Lists
  rw [mem_children, mem_children, h]

/-- What is below in an arena with fewer links is below. -/
theorem below_of_lists (hlists : ∀ z c, a.Below x z → a'.Lists z c → a.Lists z c)
    (h : a'.Below x y) : a.Below x y := by
  induction h with
  | refl => exact .refl
  | tail _ hzy ih => exact ih.tail (hlists _ _ ih hzy)

theorem below_of_mem_within {fuel : Nat} (h : y ∈ a.descendantsWithin fuel x) :
    a.Below x y := by
  induction fuel generalizing x with
  | zero => cases h
  | succ fuel ih =>
    rw [descendantsWithin, mem_cons, mem_flatMap] at h
    rcases h with rfl | ⟨c, hc, hy⟩
    · exact .refl
    · exact .head hc (ih hy)

end Loom.Arena
