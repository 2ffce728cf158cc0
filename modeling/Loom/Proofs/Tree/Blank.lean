import Loom.Proofs.Tree.Arena
import Loom.Weave

/-!
What a node keeps while its slots are filled and emptied.

A kind without the nodes in its slots is its blank. No edit of a slot changes it, and which slots a
kind has can be read off it. So a node accepts a part for a slot whenever it was made as a node that
does.
-/

namespace Loom

/-- The edit that empties all slots. -/
def SlotEdit.clear : SlotEdit where
  one _ := 0
  opt _ := none
  many _ := []
  manyOpt _ := []

namespace Kind

variable {e : SlotEdit} {branch c : NodeId} {role : BranchRole} {k k' : Kind} {field : SlotField}

/-- The kind without the nodes in its slots. -/
def blank (k : Kind) : Kind := k.mapSlots .clear

theorem blank_mapSlots : (k.mapSlots e).blank = k.blank := by
  cases k <;> rfl

theorem blank_attach? (h : k.attach? c field = some k') : k'.blank = k.blank := by
  unfold attach? at h
  split at h <;> cases h <;> rfl

theorem blank_pushChild? (h : k.pushChild? c = some k') : k'.blank = k.blank := by
  unfold pushChild? at h
  split at h <;> cases h <;> rfl

theorem blank_setBranch : (k.setBranch branch role).blank = k.blank := by
  unfold setBranch
  split <;> rfl

/-- Nodes of the kind have the slot. -/
def Accepts (k : Kind) (field : SlotField) : Prop := ∀ child, (k.attach? child field).isSome = true

theorem isSome_attach?_mapSlots :
    ((k.mapSlots e).attach? c field).isSome = (k.attach? c field).isSome := by
  cases field <;> cases k <;> rfl

theorem accepts_blank : k.blank.Accepts field ↔ k.Accepts field := by
  simp only [Accepts, blank, isSome_attach?_mapSlots]

end Kind

namespace Arena

variable {a a1 a' : Arena} {id : NodeId}

/-- All nodes that were there are still there, with the same blanks. -/
structure Keeps (a a' : Arena) : Prop where
  size : a.size ≤ a'.size
  blank : ∀ i < a.size, (a'.kind i).blank = (a.kind i).blank

namespace Keeps

theorem refl (a : Arena) : a.Keeps a := ⟨Nat.le_refl _, fun _ _ => rfl⟩

theorem trans (h : a.Keeps a1) (h' : a1.Keeps a') : a.Keeps a' :=
  ⟨Nat.le_trans h.size h'.size, fun i hi =>
    (h'.blank i (Nat.lt_of_lt_of_le hi h.size)).trans (h.blank i hi)⟩

/-- An update that changes no kind. -/
theorem of_kind (hsize : a'.size = a.size) (hkind : ∀ i, a'.kind i = a.kind i) : a.Keeps a' :=
  ⟨Nat.le_of_eq hsize.symm, fun i _ => congrArg Kind.blank (hkind i)⟩

theorem setKind {k : Kind} (h : k.blank = (a.kind id).blank) : a.Keeps (a.setKind id k) := by
  refine ⟨Nat.le_of_eq (size_setKind id k).symm, fun i _ => ?_⟩
  rw [kind_setKind]
  split
  case isTrue hi => rw [h, hi.1]
  case isFalse => rfl

theorem setParent (p : Option NodeId) : a.Keeps (a.setParent id p) :=
  .of_kind (size_setParent id p) fun i => kind_setParent id i p

theorem allocAt (k : Kind) (r : Range) (coords : Coordinates) :
    a.Keeps (a.allocAt k r coords).2 := by
  refine ⟨?_, fun i hi => ?_⟩
  · rw [size_allocAt]
    exact Nat.le_succ _
  · rw [kind_allocAt, if_neg (Nat.ne_of_lt hi)]

theorem pushChild (parent child : NodeId) : a.Keeps (a.pushChild parent child).2 := by
  unfold Arena.pushChild
  split
  case h_1 k hk => exact (setKind (Kind.blank_pushChild? hk)).trans (setParent _)
  case h_2 => exact refl a

theorem attach (owner child : NodeId) (field : SlotField) :
    a.Keeps (a.attach owner field child).2 := by
  unfold Arena.attach
  split
  case h_1 k hk => exact (setKind (Kind.blank_attach? hk)).trans (setParent _)
  case h_2 => exact refl a

theorem removeChild (parent child : NodeId) : a.Keeps (a.removeChild parent child).2 := by
  unfold Arena.removeChild
  dsimp only
  split
  · exact (setKind Kind.blank_mapSlots).trans (setParent _)
  · exact refl a

theorem detach (id : NodeId) : a.Keeps (a.detach id).2 := by
  unfold Arena.detach
  split
  · exact removeChild _ id
  · exact refl a

/-- A node accepts what it accepted before. -/
theorem accepts (h : a.Keeps a') (hid : id < a.size) {field : SlotField}
    (haccepts : (a.kind id).Accepts field) : (a'.kind id).Accepts field := by
  rw [← Kind.accepts_blank, h.blank id hid, Kind.accepts_blank]
  exact haccepts

end Keeps

/-- A part can be put into a slot of a node that accepts it. -/
theorem attach_of_accepts {field : SlotField} (h : (a.kind id).Accepts field) (child : NodeId) :
    (a.attach id field child).1 = true := by
  obtain ⟨k, hk⟩ := Option.isSome_iff_exists.mp (h child)
  rw [attach, hk]

end Arena

end Loom
