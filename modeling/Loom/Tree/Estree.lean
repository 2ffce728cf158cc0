import Loom.Token
import Loom.Tree.Arena

/-!
The exported form of a tree: plain data in the shape of ESTree.
-/

namespace Loom.Estree

/-- Plain data, as a consumer of the tree receives it. -/
inductive Value where
  | null
  | bool (value : Bool)
  | nat (value : Nat)
  | double (value : Double)
  | text (value : String)
  | list (items : List Value)
  | record (members : List (String × Value))
deriving Inhabited

def positionValue (p : Position) : Value :=
  .record [("line", .nat p.line), ("column", .nat p.column)]

def rangeValue (r : Range) : Value := .list [.nat r.start, .nat r.stop]

def locationValue (l : Location) : Value :=
  .record [("start", positionValue l.start), ("end", positionValue l.stop)]

def placeMembers (r : Range) (l : Location) : List (String × Value) :=
  [("range", rangeValue r), ("loc", locationValue l)]

def optionValue (f : α → Value) : Option α → Value
  | none => .null
  | some a => f a

/-- The value of a number: `null` when it is infinite. -/
def doubleValue (d : Double) : Value := if d.isFinite then .double d else .null

def fieldValue (node : NodeId → Value) : Field → Value
  | .node id => node id
  | .optNode id => optionValue node id
  | .nodes ids => .list (ids.map node)
  | .optNodes ids => .list (ids.map (optionValue node))
  | .text s => .text s
  | .texts ss => .list (ss.map .text)
  | .flag b => .bool b
  | .number d => doubleValue d
  | .null => .null
  | .record members => .record (members.map fun m => (m.1, optionValue .text m.2))

def nodeMembers (a : Arena) (node : NodeId → Value) (id : NodeId) : List (String × Value) :=
  let n := a.node id
  ("type", .text n.kind.typeName) :: n.kind.fields.map (fun f => (f.1, fieldValue node f.2))
    ++ placeMembers n.range n.loc

/-- The value of a node down to the depth given by the fuel. -/
def nodeWithin (a : Arena) : Nat → NodeId → Value
  | 0, _ => .null
  | fuel + 1, id => .record (nodeMembers a (nodeWithin a fuel) id)

def node (a : Arena) (id : NodeId) : Value := nodeWithin a a.size id

def token (t : Token) : Value :=
  .record ([("type", .text t.kind.name), ("value", .text t.value)] ++ placeMembers t.range t.loc)

def comment (c : Comment) : Value :=
  .record ([("type", .text c.kind.name), ("value", .text c.value)] ++ placeMembers c.range c.loc)

def program (a : Arena) (id : NodeId) (tokens : List Token) (comments : List Comment) : Value :=
  .record (nodeMembers a (node a) id
    ++ [("tokens", .list (tokens.map token)), ("comments", .list (comments.map comment))])

end Loom.Estree
