import Loom.Coordinates
import Loom.Tree.Slot

/-!
Arenas: the nodes of a unified tree, numbered in the order of their allocation.

Numbers are never reused. A node that is taken out of the tree stays in its arena and is not
reachable.
-/

namespace Loom

structure Node where
  kind : Kind
  range : Range
  loc : Location
  parent : Option NodeId
deriving Inhabited

structure Arena where
  nodes : Array Node
deriving Inhabited

namespace Arena

def empty : Arena := ⟨#[]⟩

def size (a : Arena) : Nat := a.nodes.size

def isEmpty (a : Arena) : Bool := a.nodes.isEmpty

variable (a : Arena)

def node (id : NodeId) : Node := a.nodes.getD id default

def kind (a : Arena) (id : NodeId) : Kind := (a.node id).kind

def range (a : Arena) (id : NodeId) : Range := (a.node id).range

def parent (a : Arena) (id : NodeId) : Option NodeId := (a.node id).parent

def modify (a : Arena) (id : NodeId) (f : Node → Node) : Arena := ⟨a.nodes.modify id f⟩

def setKind (id : NodeId) (k : Kind) : Arena := a.modify id ({ · with kind := k })

def setParent (id : NodeId) (p : Option NodeId) : Arena :=
  a.modify id ({ · with parent := p })

def setRange (id : NodeId) (r : Range) (coords : Coordinates) : Arena :=
  a.modify id ({ · with range := r, loc := coords.location r })

/-- Adds a node and makes it the parent of its children. -/
def alloc (k : Kind) (r : Range) : NodeId × Arena :=
  let id := a.size
  let pushed : Arena := ⟨a.nodes.push ⟨k, r, default, none⟩⟩
  (id, k.childIds.foldl (fun a c => a.setParent c (some id)) pushed)

def allocAt (k : Kind) (r : Range) (coords : Coordinates) : NodeId × Arena :=
  let (id, a) := a.alloc k r
  (id, a.setRange id r coords)

/-- The children of a node in source order: the parts of a template literal interleave. -/
def children (id : NodeId) : List NodeId :=
  match a.kind id with
  | .templateLiteral quasis expressions =>
    (quasis ++ expressions).mergeSort fun x y => (a.range x).start ≤ (a.range y).start
  | k => k.childIds

/-- The nodes below `id` in pre-order, down to the depth given by the fuel. -/
def descendantsWithin (a : Arena) : Nat → NodeId → List NodeId
  | 0, _ => []
  | fuel + 1, id => id :: (a.children id).flatMap (a.descendantsWithin fuel)

/-- A node and everything below it, in pre-order. A path in a tree has at most as many nodes as the
arena. -/
def descendants (id : NodeId) : List NodeId := a.descendantsWithin a.size id

def identifierName? (id : NodeId) : Option String :=
  match a.kind id with
  | .identifier name => some name
  | _ => none

/-- Takes `child` out of the lists and optional fields of `parent`. The flag tells whether it was in
one; a required field cannot be emptied. -/
def removeChild (parent child : NodeId) : Bool × Arena :=
  let k := a.kind parent
  if k.slots.any (·.canRemove child) then
    (true, (a.setKind parent (k.mapSlots (.remove child))).setParent child none)
  else (false, a)

def replaceChild (parent old new : NodeId) : Bool × Arena :=
  let k := a.kind parent
  if k.slotIds.contains old then
    let a := a.setKind parent (k.mapSlots (.replace old new))
    (true, (a.setParent old none).setParent new (some parent))
  else (false, a)

/-- Takes a node out of its parent's list or optional field. -/
def detach (id : NodeId) : Bool × Arena :=
  match a.parent id with
  | some parent => a.removeChild parent id
  | none => (false, a)

/-- Puts `child` into a slot of the markup node `owner`. -/
def attach (owner : NodeId) (field : SlotField) (child : NodeId) : Bool × Arena :=
  match (a.kind owner).attach? child field with
  | some k => (true, (a.setKind owner k).setParent child (some owner))
  | none => (false, a)

def pushChild (parent child : NodeId) : Bool × Arena :=
  match (a.kind parent).pushChild? child with
  | some k => (true, (a.setKind parent k).setParent child (some parent))
  | none => (false, a)

end Arena

end Loom
