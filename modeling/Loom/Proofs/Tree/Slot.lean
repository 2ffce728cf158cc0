import Loom.Tree.Slot
import Mathlib.Data.List.Nodup
import Mathlib.Data.List.Pairwise

/-!
Slots of kinds: the reading and the writing view of a kind see the same nodes, taking a node out
leaves the others, and a slot of a markup node holds what was put into it.
-/

open List

namespace Loom

open Slot

namespace Slot

variable {s : Slot} {child c : NodeId}

/-- The slot without `child`, where it can do without it. -/
def without (child : NodeId) (s : Slot) : Slot := (SlotEdit.remove child).apply s

/-- Whether the slot has to hold a node. -/
def isRequired : Slot → Bool
  | .one _ => true
  | _ => false

/-- A required slot keeps the node that is taken out, the others lose every occurrence of it. -/
theorem nodeIds_without (child : NodeId) (s : Slot) :
    (s.without child).nodeIds = if s.isRequired then s.nodeIds
      else s.nodeIds.filter (· != child) := by
  cases s with
  | one id => rfl
  | opt id =>
    cases id with
    | none => rfl
    | some c => by_cases hc :
      c = child <;> simp [without, SlotEdit.apply, SlotEdit.remove, nodeIds, isRequired, hc]
  | many ids => rfl
  | manyOpt ids =>
    induction ids with
    | nil => rfl
    | cons x ids ih =>
      simp only [without, SlotEdit.apply, SlotEdit.remove, nodeIds, isRequired] at ih ⊢
      cases x with
      | none => simpa using ih
      | some c => by_cases hc : c = child <;> simpa [hc] using ih

theorem nodeIds_without_sublist (child : NodeId) (s : Slot) :
    (s.without child).nodeIds.Sublist s.nodeIds := by
  rw [nodeIds_without]
  split
  · exact List.Sublist.refl _
  · exact filter_sublist

theorem mem_nodeIds_without (h : c ≠ child) : c ∈ (s.without child).nodeIds ↔ c ∈ s.nodeIds := by
  rw [nodeIds_without]
  split <;> simp [h]

/-- Only a required slot keeps the node that is taken out. -/
theorem eq_one_of_mem_without (h : child ∈ (s.without child).nodeIds) : s = .one child := by
  rw [nodeIds_without] at h
  cases s <;> simp_all [isRequired, nodeIds]

theorem canRemove_iff_isRequired :
    s.canRemove child = true ↔ s.isRequired = false ∧ child ∈ s.nodeIds := by
  cases s <;> simp [canRemove, isRequired]

theorem canRemove_iff : s.canRemove child = true ↔ child ∈ s.nodeIds ∧ s ≠ .one child := by
  cases s <;> simp [canRemove, nodeIds, eq_comm]

theorem canRemove_without (h : c ≠ child) : (s.without child).canRemove c = s.canRemove c := by
  rw [Bool.eq_iff_iff, canRemove_iff, canRemove_iff, mem_nodeIds_without h]
  cases s with
  | one id => rfl
  | _ => simp [without, SlotEdit.apply]

instance : Std.Symm (Function.onFun List.Disjoint nodeIds) := ⟨fun _ _ h _ hy hx => h hx hy⟩

end Slot

namespace Kind

variable {k : Kind} {child c : NodeId}

theorem childIds_eq (k : Kind) : k.childIds = k.slotIds := by
  cases k with
  | literal value raw => cases value <;> rfl
  | _ => rfl

theorem slots_mapSlots (e : SlotEdit) (k : Kind) : (k.mapSlots e).slots = k.slots.map e.apply := by
  cases k with
  | literal value raw => cases value <;> rfl
  | _ => rfl

theorem childIds_mapSlots (e : SlotEdit) (k : Kind) :
    (k.mapSlots e).childIds = k.slots.flatMap fun s => (e.apply s).nodeIds := by
  rw [childIds_eq, slotIds, slots_mapSlots, flatMap_map]

/-- Putting `new` in the place of `old` does so wherever it is listed. -/
theorem childIds_replace (old new : NodeId) (k : Kind) :
    (k.mapSlots (.replace old new)).childIds = k.childIds.map fun c => if c = old then new
      else c := by
  rw [childIds_mapSlots, childIds_eq, slotIds, map_flatMap]
  congr 1
  funext s
  cases s with
  | one id => rfl
  | opt id =>
    cases id with
    | none => rfl
    | some c => by_cases hc : c = old <;> simp [SlotEdit.apply, SlotEdit.replace, nodeIds, hc]
  | many ids => rfl
  | manyOpt ids =>
    simp only [SlotEdit.apply, SlotEdit.replace, nodeIds, filterMap_map, map_filterMap]
    congr 1
    funext x
    cases x with
    | none => rfl
    | some c => by_cases hc : c = old <;> simp [hc]

theorem slots_remove : (k.mapSlots (.remove child)).slots = k.slots.map (without child) :=
  slots_mapSlots (.remove child) k

/-- Whether a node can be taken out of one of the slots. -/
def canDrop (k : Kind) (child : NodeId) : Bool := k.slots.any (·.canRemove child)

/-- The kind without `child`, where it can do without it. -/
def drop (child : NodeId) (k : Kind) : Kind :=
  if k.canDrop child then k.mapSlots (.remove child) else k

theorem mem_childIds : c ∈ k.childIds ↔ ∃ s ∈ k.slots, c ∈ s.nodeIds := by
  rw [childIds_eq, slotIds, mem_flatMap]

theorem canDrop_iff : k.canDrop child = true ↔ ∃ s ∈ k.slots, s.canRemove child = true :=
  any_eq_true

theorem mem_of_canDrop (h : k.canDrop child = true) : child ∈ k.childIds := by
  obtain ⟨s, hs, hchild⟩ := canDrop_iff.mp h
  exact mem_childIds.mpr ⟨s, hs, (canRemove_iff.mp hchild).1⟩

theorem drop_of_notMem (h : child ∉ k.childIds) : k.drop child = k :=
  if_neg fun hdrop => h (mem_of_canDrop hdrop)

theorem childIds_drop_sublist (child : NodeId) (k : Kind) :
    (k.drop child).childIds.Sublist k.childIds := by
  unfold drop
  split
  · rw [childIds_mapSlots, childIds_eq, slotIds]
    induction k.slots with
    | nil => exact List.Sublist.refl _
    | cons s ss ih => exact (s.nodeIds_without_sublist child).append ih
  · exact List.Sublist.refl _

theorem mem_childIds_drop_ne (h : c ≠ child) : c ∈ (k.drop child).childIds ↔ c ∈ k.childIds := by
  unfold drop
  split
  · rw [mem_childIds, mem_childIds, slots_remove]
    simp only [mem_map, exists_exists_and_eq_and, mem_nodeIds_without h]
  · rfl

/-- In a kind that lists its nodes once, a node that can be taken out is gone. -/
theorem notMem_childIds_drop (hnodup : k.childIds.Nodup) (h : k.canDrop child = true) :
    child ∉ (k.drop child).childIds := by
  rw [drop, if_pos h, mem_childIds, slots_remove]
  rintro ⟨s', hs', hmem⟩
  obtain ⟨s, hs, rfl⟩ := mem_map.mp hs'
  obtain rfl := eq_one_of_mem_without hmem
  obtain ⟨s', hs', hremove⟩ := canDrop_iff.mp h
  obtain ⟨hchild, hne⟩ := canRemove_iff.mp hremove
  rw [childIds_eq, slotIds, nodup_flatMap] at hnodup
  have hdisj := hnodup.2.forall hs hs' hne.symm
  exact hdisj (mem_singleton.mpr rfl) hchild

theorem canDrop_drop (h : c ≠ child) : (k.drop child).canDrop c = k.canDrop c := by
  rw [drop]
  split
  · simp only [canDrop, slots_remove, any_map, Function.comp_def, canRemove_without h]
  · rfl

/-- The kind without some nodes, where it can do without them. -/
def dropAll (gone : List NodeId) (k : Kind) : Kind := gone.foldl (fun k n => k.drop n) k

variable {gone : List NodeId}

theorem dropAll_append (gone more : List NodeId) (k : Kind) :
    k.dropAll (gone ++ more) = (k.dropAll gone).dropAll more :=
  foldl_append

theorem childIds_dropAll_sublist (gone : List NodeId) (k : Kind) :
    (k.dropAll gone).childIds.Sublist k.childIds := by
  induction gone generalizing k with
  | nil => exact List.Sublist.refl _
  | cons n gone ih => exact (ih (k.drop n)).trans (childIds_drop_sublist n k)

theorem mem_childIds_dropAll (hc : c ∉ gone) : c ∈ (k.dropAll gone).childIds ↔ c ∈ k.childIds := by
  induction gone generalizing k with
  | nil => rfl
  | cons n gone ih =>
    rw [mem_cons, not_or] at hc
    exact (ih hc.2).trans (mem_childIds_drop_ne hc.1)

theorem dropAll_of_notMem (h : ∀ n ∈ gone, n ∉ k.childIds) : k.dropAll gone = k := by
  induction gone with
  | nil => rfl
  | cons n gone ih =>
    rw [forall_mem_cons] at h
    unfold dropAll
    rw [foldl_cons, drop_of_notMem h.1]
    exact ih h.2

theorem notMem_childIds_dropAll (hnodup : k.childIds.Nodup) (hmem : c ∈ gone)
    (hcan : k.canDrop c = true) : c ∉ (k.dropAll gone).childIds := by
  induction gone generalizing k with
  | nil => cases hmem
  | cons n gone ih =>
    by_cases hn : c = n
    · subst hn
      exact fun hc => notMem_childIds_drop hnodup hcan ((childIds_dropAll_sublist gone _).subset hc)
    · refine ih (hnodup.sublist (childIds_drop_sublist n k)) ((mem_cons.mp hmem).resolve_left hn) ?_
      rw [canDrop_drop hn]
      exact hcan

/-- What a slot of a markup node holds. -/
def held : SlotField → Kind → List NodeId
  | .expression, .markupMustacheTag _ e | .expression, .markupIfBlock _ e _ _
  | .expression, .markupEachBlock e _ _ _ _ _ | .expression, .markupAwaitBlock e _ _ _
  | .expression, .markupKeyBlock e _ | .expression, .markupRenderTag e
  | .expression, .markupShorthandAttribute _ e | .expression, .markupSpreadAttribute e
  | .expression, .markupDirective _ _ _ _ e => e.toList
  | .nameExpression, .markupElement _ _ e _ _ | .nameExpression,
    .markupDirective _ _ _ e _ => e.toList
  | .context, .markupEachBlock _ e _ _ _ _ => e.toList
  | .index, .markupEachBlock _ _ e _ _ _ => e.toList
  | .key, .markupEachBlock _ _ _ e _ _ => e.toList
  | .value, .markupAwaitThenBlock e _ => e.toList
  | .error, .markupAwaitCatchBlock e _ => e.toList
  | .id, .markupSnippetBlock e _ _ => e.toList
  | .param, .markupSnippetBlock _ params _ => params
  | .declaration, .markupConstTag e => e.toList
  | _, _ => []

/-- What a slot holds after `child` is put into it: parameters are appended, others are
overwritten. -/
def holdMore (field : SlotField) (before : List NodeId) (child : NodeId) : List NodeId :=
  if field = .param then before ++ [child] else [child]

variable {field field' : SlotField} {k' : Kind}

variable (h : k.attach? child field = some k')

include h

theorem held_attach : k'.held field = holdMore field (k.held field) child := by
  unfold attach? at h
  split at h <;> cases h <;> rfl

theorem held_attach_ne (hne : field' ≠ field) : k'.held field' = k.held field' := by
  unfold attach? at h
  split at h <;> cases h <;> cases field' <;> first | rfl | exact absurd rfl hne

/-- A node that is put into an empty slot, or appended to the parameters, is one more child. -/
theorem childIds_attach (hblank : field = .param ∨ k.held field = []) :
    k'.childIds.Perm (child :: k.childIds) := by
  rw [childIds_eq, childIds_eq]
  unfold attach? at h
  split at h <;> cases h <;> simp only [held, reduceCtorEq, false_or,
    Option.toList_eq_nil_iff] at hblank <;>
    (try subst hblank) <;>
    simp [slotIds, slots, nodeIds]
  case h_13 => exact (perm_middle.append_left _).trans perm_middle
  case h_14 => exact (((perm_middle.append_left _).trans perm_middle).append_left _).trans perm_middle
  case h_18 => exact (perm_middle.append_left _).trans perm_middle

end Kind

end Loom
