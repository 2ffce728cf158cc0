import Loom.Error
import Loom.Scope.Edit
import Loom.Token
import Loom.Tree.Arena

/-!
Undoing one wrapper: the parts of the parsed statement go back to the source coordinates and into
their slots, and the scopes of the statement go to the markup nodes that they stand for.
-/

namespace Loom

structure Workbench where
  arena : Arena
  scopes : ScopeGraph
  /-- Nodes that already have source coordinates. -/
  visited : List NodeId

namespace Workbench

/-- Moves the nodes of a sub-tree back, each at most once. -/
def shiftSubtree (coords : Coordinates) (w : Workbench) (root : NodeId) (delta : Int) : Workbench :=
  (w.arena.descendants root).foldl (fun w id =>
    if w.visited.contains id then w
    else
      { w with
        visited := id :: w.visited
        arena := w.arena.setRange id ((w.arena.range id).shifted delta) coords }) w

end Workbench

/-- The object of a member expression, and the name of the member when it is a plain one. -/
def Arena.plainMember? (a : Arena) (id : NodeId) : Option (NodeId × String) :=
  match a.kind id with
  | .memberExpression object member false _ => (a.identifierName? member).map (object, ·)
  | _ => none

def Arena.callWithOne? (a : Arena) (id : NodeId) : Option (NodeId × NodeId) :=
  match a.kind id with
  | .callExpression callee [argument] _ => some (callee, argument)
  | _ => none

structure EachParts where
  array : NodeId
  source : NodeId
  callback : NodeId
  params : List NodeId

def Arena.eachParts? (a : Arena) (statement : NodeId) : Option EachParts := do
  let .expressionStatement e := a.kind statement | none
  let (outer, callback) ← a.callWithOne? e
  let (arrayCall, outerName) ← a.plainMember? outer
  let (inner, source) ← a.callWithOne? arrayCall
  let (array, innerName) ← a.plainMember? inner
  let .arrowFunction params .. := a.kind callback | none
  if outerName == "forEach" && innerName == "from" && a.identifierName? array == some "Array" then
    some ⟨array, source, callback, params⟩
  else none

namespace Task

/-- The node for one fragment of a loop wrapper. -/
def eachTarget? (parts : EachParts) (f : Fragment) : Option NodeId :=
  match f.field with
  | .expression => some parts.source
  | .context => parts.params[0]?
  | .index => parts.params[1]?
  | _ => none

/-- The nodes that the fragments became, in the order of the fragments; none when the statement does
not have the form of the wrapper. -/
def targets? (t : Task) (a : Arena) (statement : NodeId) : Option (List NodeId) :=
  match t.action with
  | .expression =>
    match a.kind statement with
    | .expressionStatement e => if t.fragments.length = 1 then some [e] else none
    | _ => none
  | .ifBlock .. =>
    match a.kind statement with
    | .ifStatement test .. => if t.fragments.length = 1 then some [test] else none
    | _ => none
  | .eachBlock .. => do
    let parts ← a.eachParts? statement
    t.fragments.mapM (eachTarget? parts)
  | .callback _ => do
    let .expressionStatement e := a.kind statement | none
    match a.kind e with
    | .arrowFunction params .. =>
      if params.length = t.fragments.length then some params else none
    | _ => none
  | .snippet _ =>
    match a.kind statement with
    | .function .declaration (some id) params .. =>
      if params.length + 1 = t.fragments.length then some (id :: params) else none
    | _ => none
  | .constTag =>
    match a.kind statement with
    | .variableDeclaration .const declarations =>
      if declarations.length = 1 && t.fragments.length = 1 then some declarations else none
    | _ => none

def mismatch (t : Task) (coords : Coordinates) (a : Arena) (node : NodeId) : Failure :=
  .shape (.wrapperProduced t.action (a.kind node).typeName) (.of coords t.anchor)

/-- Keeps the items inside a fragment, moved to the source. -/
def relocate [Ranged α] (t : Task) (coords : Coordinates) (items : List α) : List α :=
  items.filterMap fun x =>
    let r := Ranged.range x
    (t.fragments.find? (·.generated.contains r)).map fun f =>
      Ranged.place x (r.shifted f.delta) coords

def shiftTargets (t : Task) (coords : Coordinates) :
    List (Fragment × NodeId) → Workbench → Except Failure Workbench
  | [], w => .ok w
  | (f, target) :: rest, w =>
    if f.generated.contains (w.arena.range target) then
      t.shiftTargets coords rest (w.shiftSubtree coords target f.delta)
    else .error (t.mismatch coords w.arena target)

def attachTargets (t : Task) (coords : Coordinates) :
    List (Fragment × NodeId) → Workbench → Except Failure Workbench
  | [], w => .ok w
  | (f, target) :: rest, w =>
    match w.arena.attach f.owner f.field target with
    | (true, arena) => t.attachTargets coords rest { w with arena }
    | (false, _) => .error (t.mismatch coords w.arena f.owner)

/-- Gives the outermost scope of a node to a markup node. -/
def handOver (g : ScopeGraph) (node owner : NodeId) : ScopeGraph :=
  match g.acquire? node with
  | some s => g.registerNode owner s
  | none => g

/-- Takes the placeholder out of the scope of a loop callback. -/
def dropPlaceholder (a : Arena) (parts : EachParts) (syntheticContext : Bool) (g : ScopeGraph)
    (s : ScopeId) : ScopeGraph :=
  if syntheticContext then
    match parts.params with
    | placeholder :: _ => g.removeVariable a placeholder s
    | [] => g
  else g

/-- The scopes after the wrapper is gone. -/
def reconcile (t : Task) (a : Arena) (statement : NodeId) (targets : List NodeId) (g : ScopeGraph) :
    ScopeGraph :=
  match t.action with
  | .expression | .constTag => g
  | .ifBlock owner elseOwner =>
    match a.kind statement with
    | .ifStatement _ consequent alternate =>
      let g := handOver g consequent owner
      match alternate, elseOwner with
      | some alternate, some elseOwner => handOver g alternate elseOwner
      | _, _ => g
    | _ => g
  | .eachBlock owner syntheticContext =>
    match a.eachParts? statement with
    | some parts =>
      let enclosing := g.innermostScope a statement
      let g :=
        match g.acquire? parts.callback with
        | some s => (dropPlaceholder a parts syntheticContext g s).registerNode owner s
        | none => g
      (g.removeReference parts.array enclosing).2
    | none => g
  | .callback owner =>
    match a.kind statement with
    | .expressionStatement e =>
      match g.acquire? e with
      | some s =>
        if targets.isEmpty then g.replaceScope s (g.scopeAt s).children
        else g.registerNode owner s
      | none => g
    | _ => g
  | .snippet owner => handOver g statement owner

/-- Undoes a wrapper, given the statement that it became and the tokens and comments in its range.
Answers with those that are real. -/
def restore (t : Task) (coords : Coordinates) (w : Workbench) (statement : NodeId)
    (tokens : List Token) (comments : List Comment) :
    Except Failure (Workbench × List Token × List Comment) := do
  let some targets := t.targets? w.arena statement
    | .error (t.mismatch coords w.arena statement)
  let pairs := t.fragments.zip targets
  let w ← t.shiftTargets coords pairs w
  let w := { w with scopes := t.reconcile w.arena statement targets w.scopes }
  let w ← t.attachTargets coords pairs w
  let w := { w with arena := (w.arena.detach statement).2 }
  return (w, t.relocate coords tokens, t.relocate coords comments)

end Task

end Loom
