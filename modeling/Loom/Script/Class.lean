import Loom.Script.Function

/-!
Classes and their members.
-/

namespace Loom.Script.Class

open Loom.Script.Parser Modifier

/-! ## Names of members -/

variable (g : Grammar)

/-- The name of a member, which is no constant. With types, a private name says by itself who can
use it. -/
def memberName (modifiers : List Modifier) : Parser (NodeId × Bool) := do
  refuse ["const"] modifiers
  match ← lexeme with
  | .privateName name =>
    let id ← leaf (.privateIdentifier name)
    if ← typescript then refuse accessibility modifiers
    if name == "constructor" then complainOf id
    return (id, false)
  | _ => propertyName g

def nameText? (key : NodeId) (computed : Bool) : Parser (Option String) := do
  if computed then return none
  match ← kindOf key with
  | .identifier name | .literal (.string name) _ => return some name
  | _ => return none

/-- Complains about a method that takes the name of the constructor or the place of the
prototype. -/
def checkMethodName (key : NodeId) (computed isStatic special : Bool) : Parser Unit := do
  let name ← nameText? key computed
  if (isStatic && name == some "prototype") ||
    (!isStatic && special && name == some "constructor") then complainOf key

/-- Complains about a field that does the same. A static field with accessors may. -/
def checkFieldName (key : NodeId) (computed : Bool) (modifiers : List Modifier) : Parser Unit := do
  let name ← nameText? key computed
  let isStatic := contains modifiers "static"
  let refused := if contains modifiers "accessor" then !isStatic && name == some "constructor"
    else name == some "constructor" || (isStatic && name == some "prototype")
  if refused then complainOf key

/-! ## Members -/

def endProperty : Parser Unit := do
  if !(← canEndStatement) then return ← unexpected
  let _ ← take ";"

/-- Complains about what an abstract member has and cannot have: a value or a body. -/
def checkAbstract (key : NodeId) (present : Bool) (modifiers : List Modifier) : Parser Unit := do
  if present && contains modifiers "abstract" then complainOf key

def hasBody (value : NodeId) : Parser Bool := do
  match ← kindOf value with
  | .function .. => return true
  | _ => return false

def accessorModifiers : List String :=
  ["accessor", "static", "abstract", "override"] ++ accessibility

/-- A property from its annotation on. The modifiers of type parameters are none of its own. -/
def afterPropertyName (start : Nat) (key : NodeId) (computed : Bool) (modifiers : List Modifier) :
    Parser NodeId := do
  Type.optionalAnnotation g
  let value ← optionally (take "=") <|
    within ({ · with inOperator := true, awaitOperator := false, yieldOperator := false })
      (expression g)
  endProperty
  checkFieldName key computed modifiers
  checkAbstract key value.isSome modifiers
  if contains modifiers "accessor" then allow accessorModifiers modifiers
  else refuse ["in", "out"] modifiers
  node start (.propertyDefinition key value computed (contains modifiers "static"))

def staticBlock (g : Grammar) (start : Nat) : Parser NodeId := do
  advance
  let found ← within ({ · with awaitOperator := true, yieldOperator := false, returnable := false })
    (Function.statements g)
  node start (.staticBlock found)

def accessor (start : Nat) (modifiers : List Modifier) : Parser NodeId := do
  let isGetter ← seesWord "get"
  let isStatic := contains modifiers "static"
  advance
  let (key, computed) ← memberName g modifiers
  let (value, s) ← Function.method g .classMethod (contains modifiers "async") false
  checkMethodName key computed isStatic true
  if isGetter then Function.checkGetter s else Function.checkSetter s
  checkAbstract key (← hasBody value) modifiers
  refuse ["async", "declare"] modifiers
  node start (.methodDefinition key value (if isGetter then .get else .set) computed isStatic)

/-- Whether a constructor starts here: its word always starts one, a string only before
parameters. -/
def seesConstructor : Parser Bool := do
  match ← lexeme with
  | .word "constructor" _ => return true
  | .string "constructor" => return (← nextLexeme).isMark "("
  | _ => return false

def checkConstructor (s : Function.Signature) : Parser Unit := do
  for place in s.typeParameters.toList ++ s.parameters.this.toList ++
    s.result.toList do complain place

def constructor (g : Grammar) (start : Nat) (modifiers : List Modifier) : Parser NodeId := do
  let isAsync := contains modifiers "async"
  let (key, computed) ← memberName g modifiers
  let (value, s) ← Function.method g .constructor isAsync false
  checkMethodName key computed false isAsync
  checkConstructor s
  refuse ["declare"] modifiers
  node start (.methodDefinition key value .constructor computed false)

def afterMethodName (start : Nat) (key : NodeId) (computed generator : Bool)
    (modifiers : List Modifier) : Parser NodeId := do
  let isStatic := contains modifiers "static"
  let isAsync := contains modifiers "async"
  let (value, _) ← Function.method g .classMethod isAsync generator
  checkMethodName key computed isStatic (isAsync || generator)
  checkAbstract key (← hasBody value) modifiers
  refuse ["declare", "readonly"] modifiers
  node start (.methodDefinition key value .method computed isStatic)

/-- A property or a method. A property that may be missing cannot be definite, and has no
accessors. -/
def propertyOrMethod (start : Nat) (modifiers : List Modifier) : Parser NodeId := do
  let generator ← take "*"
  let (key, computed) ← memberName g modifiers
  let optionalPlace ← here
  let isOptional ← take "?"
  if generator || (← seesAny ["(", "<"]) then
    return ← afterMethodName g start key computed generator modifiers
  let isDefinite ← if ← onNewLine then pure false else take "!"
  if isOptional && (isDefinite || contains modifiers "accessor") then complain optionalPlace
  afterPropertyName g start key computed modifiers

def startsMember (l : Lexeme) : Bool :=
  l.isPropertyName || l.isPrivateName || l.isAnyMark ["*", "["]

/-- A member of a class. Index signatures leave no node. Neither they nor blocks have decorators. -/
def member : Parser (Option NodeId) := do
  let start ← here
  let decorators ← Function.decorators g
  let modifiers ← ofMember true true
  if (← seesWord "static") && (← nextLexeme).isMark openBrace then
    decorators.forM complain
    allow [] modifiers
    return some (← staticBlock g start)
  if (← Type.seesAccessor "get") || (← Type.seesAccessor "set") then
    return some (← accessor g start modifiers)
  if !contains modifiers "static" && (← seesConstructor) then
    return some (← constructor g start modifiers)
  if ← Type.startsIndexSignature then
    decorators.forM complain
    Type.indexSignature g modifiers
    return none
  if !startsMember (← lexeme) then return ← unexpected
  let inside := fun (c : Context) => { c with ambient := c.ambient || contains modifiers "declare" }
  return some (← within inside (propertyOrMethod g start modifiers))

def body : Parser NodeId := spanned do
  let found ← between openBrace closeBrace <| manyUntil (sees closeBrace) do
    if ← take ";" then return none else member g
  return .classBody (found.filterMap id)

/-! ## Classes -/

def parent : Parser NodeId := do
  let e ← g.leftHandSide
  if let some (.typedExpression .instantiation inner) ← bareKind? e then return inner
  if ← Type.seesArguments then Type.arguments g
  return e

structure Parent where
  id : NodeId
  place : Nat

def placedParent : Parser Parent := do
  let place ← here
  return ⟨← parent g, place⟩

def parents : Parser (List Parent) :=
  return (← placedParent g) :: (← eachAfter "," (placedParent g))

def implemented : Parser Unit := do
  let item : Parser Unit := do
    Type.qualifiedName
    if ← Type.seesArguments then Type.arguments g
  item
  discard (eachAfter "," item)

/-- What stands between a name and the members: what is extended, and the place of `implements`. -/
structure Heritage where
  parents : List Parent
  implements : Option Nat

/-- What is extended and what is implemented, in this order and each once. Otherwise the first
`implements` is blamed, if there is one. -/
def heritage : Parser Heritage := do
  iterate (fun (found : Heritage) => do
    let place ← here
    if ← takeWord "extends" then
      if !found.parents.isEmpty then complain place
      else found.implements.forM complain
      return some { found with parents := ← parents g }
    else if ← takeWord "implements" then
      found.implements.forM complain
      implemented g
      return some { found with implements := some (found.implements.getD place) }
    else return none) ⟨[], none⟩

/-- A class after its word, whose range starts at `start`. It extends at most one other. -/
def afterWord (start : Nat) (form : DefinitionForm) : Parser NodeId := do
  let id ← optionally (return (← lexeme).isBinding && !(← seesWord "implements")) bindingName
  let _ ← Type.optionalParameters g
  let found ← heritage g
  for extra in found.parents.drop 1 do complain extra.place
  let members ← body g
  node start (.class form id (found.parents.head?.map (·.id)) members)

def classFrom (start : Nat) (form : DefinitionForm) : Parser NodeId := do
  needWord "class"
  afterWord g start form

end Loom.Script.Class
