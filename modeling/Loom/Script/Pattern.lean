import Loom.Script.Type

/-!
Patterns: what declarations and parameters bind, and the expressions that an assignment turns into
targets.
-/

namespace Loom.Script.Pattern

open Loom.Script.Parser

variable {α : Type}

/-- Items between commas, up to the closing mark, which is not taken. An item may be a rest, marked
by its place; nothing follows a rest. -/
def listWithRest (close : String) (item : Parser (α × Option Nat)) : Parser (List α) := do
  let (found, _, _) ← iterate (fun (st : List α × Option Nat × Bool) => do
    let (found, rest, closed) := st
    if closed || (← sees close) || (← atEnd) then return none
    if !found.isEmpty then
      let comma ← here
      if !(← take ",") then return ← faultAt comma
      if ← sees close then
        if rest.isSome && !(← context).ambient then complain comma
        return some (found, rest, true)
    rest.forM complain
    let (next, place) ← item
    return some (next :: found, place.orElse fun _ => rest, false)) ([], none, false)
  return found.reverse

variable (g : Grammar)

/-- What takes the remaining elements, with a type after it where `typing` reads one. It has no
initializer. -/
def restWith (typing : Parser Unit) : Parser (NodeId × Option Nat) := do
  let start ← here
  need "..."
  let place ← here
  let argument ← g.pattern
  let id ← node start (.restElement argument)
  typing
  if ← take "=" then
    let _ ← g.assignment true
    complain place
  return (id, some start)

def rest : Parser (NodeId × Option Nat) := restWith g (pure ())

/-- A pattern with its default, if it has one. The range of both starts at `start`. -/
def withDefault (start : Nat) (left : NodeId) : Parser NodeId := do
  if ← take "=" then
    let right ← withIn (g.assignment true)
    node start (.assignmentPattern left right)
  else return left

def element : Parser (Option NodeId × Option Nat) := do
  if ← sees "," then return (none, none)
  if ← sees "..." then
    let (id, place) ← rest g
    return (some id, place)
  let start ← here
  return (some (← withDefault g start (← g.pattern)), none)

def array : Parser NodeId := spanned do
  return .arrayPattern (← between "[" "]" (listWithRest "]" (element g)))

/-- A property of an object pattern. A name alone is bound to the property of that name. -/
def property (g : Grammar) : Parser (NodeId × Option Nat) := do
  if ← sees "..." then return ← rest g
  let start ← here
  let current ← lexeme
  let (key, computed) ← propertyName g
  match current, current.isBinding && !(← sees ":") with
  | .word name _, true =>
    let range ← rangeOf key
    checkName name range.start
    let bound ← nodeAt range (.identifier name)
    let value ← withDefault g start bound
    return (← node start (.property key value .init false true false), none)
  | _, _ =>
    need ":"
    let valueStart ← here
    let value ← withDefault g valueStart (← g.pattern)
    return (← node start (.property key value .init computed false false), none)

def checkRest (properties : List NodeId) : Parser Unit := do
  for p in properties do
    if let .restElement argument ← kindOf p then
      match ← kindOf argument with
      | .identifier _ => pure ()
      | _ => complainOf argument

def object : Parser NodeId := spanned do
  return .objectPattern (← between openBrace closeBrace do
    let properties ← listWithRest closeBrace (property g)
    checkRest properties
    return properties)

def pattern : Parser NodeId := do
  if ← sees "[" then array g
  else if ← sees openBrace then object g
  else bindingName

/-- The place of the outermost parenthesis around an expression. -/
def parenthesis? (id : NodeId) : Parser (Option Nat) := return (← get).parenthesized.lookup id

/-- The place of the innermost parenthesis around an expression. -/
def innerParenthesis? (id : NodeId) : Parser (Option Nat) :=
  return ((← get).parenthesized.filter (·.1 == id)).getLast?.map (·.2)

/-- An expression without its type wrappers, of which there are at most as many as the fuel says. -/
def unwrapped (a : Arena) : Nat → NodeId → NodeId
  | 0, id => id
  | fuel + 1, id =>
    match a.kind id with
    | .typedExpression _ e => unwrapped a fuel e
    | _ => id

/-- Whether an expression, under its type wrappers, can be assigned to. Type arguments alone are no
wrapper. -/
def isAssignable (a : Arena) (id : NodeId) : Bool :=
  match a.kind id, a.kind (unwrapped a a.size id) with
  | .typedExpression .instantiation _, _ => false
  | _, .identifier _ | _, .memberExpression .. => true
  | _, _ => false

/-- Checks that an expression is a variable or a member. A pattern in parentheses is blamed with
them. -/
def simpleTarget (id : NodeId) : Parser Unit := do
  let s ← get
  if isAssignable s.arena id then return
  match s.arena.kind id, ← innerParenthesis? id with
  | .objectExpression _, some place | .arrayExpression _, some place => faultAt place
  | _, _ => faultAt (s.arena.range id).start

mutual

def target : Nat → NodeId → Parser Unit
  | 0, id => simpleTarget id
  | fuel + 1, id => do
    match ← bareKind? id with
    | some (.objectExpression properties) => objectTarget fuel id properties
    | some (.arrayExpression elements) => arrayTarget fuel id elements
    | _ => simpleTarget id

def defaultedTarget : Nat → NodeId → Parser Unit
  | 0, id => simpleTarget id
  | fuel + 1, id => do
    match ← bareKind? id with
    | some (.operatorExpression .assignment "=" left right) =>
      become id (.assignmentPattern left right)
    | _ => target fuel id

/-- Turns a spread, which has to be the last of its list, into a rest. The rest of properties is no
pattern itself. -/
def restTarget : Nat → NodeId → NodeId → NodeId → Bool → Parser Unit
  | 0, _, id, _, _ => simpleTarget id
  | fuel + 1, list, id, argument, last => do
    if !last then return ← faultOf id
    target fuel argument
    match ← kindOf list, ← kindOf argument with
    | .objectExpression _, .objectPattern _ | .objectExpression _, .arrayPattern _ =>
      complainOf argument
    | _, _ => pure ()
    ((← get).trailingCommas.lookup list).forM complain
    become id (.restElement argument)

def arrayTarget : Nat → NodeId → List (Option NodeId) → Parser Unit
  | 0, id, _ => simpleTarget id
  | fuel + 1, id, elements => do
    let count := elements.length
    for (element, i) in elements.zipIdx do
      if let some e := element then
        match ← kindOf e with
        | .spreadElement argument => restTarget fuel id e argument (i + 1 == count)
        | _ => defaultedTarget fuel e
    become id (.arrayPattern elements)

def objectTarget : Nat → NodeId → List NodeId → Parser Unit
  | 0, id, _ => simpleTarget id
  | fuel + 1, id, properties => do
    let count := properties.length
    for (p, i) in properties.zipIdx do
      match ← kindOf p with
      | .spreadElement argument => restTarget fuel id p argument (i + 1 == count)
      | .property key value kind computed shorthand method =>
        match (← get).initializers.lookup p with
        | some init =>
          let bound ← nodeAt (← rangeOf p) (.assignmentPattern value init)
          become p (.property key bound kind computed shorthand method)
          modify fun s => { s with initializers := s.initializers.filter (·.1 != p) }
        | none => defaultedTarget fuel value
      | _ => faultOf p
    become id (.objectPattern properties)

end

def assignTo (id : NodeId) : Parser Unit := do target ((← get).arena.size * 2 + 2) id

end Loom.Script.Pattern
