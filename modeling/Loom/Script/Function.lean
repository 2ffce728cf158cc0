import Loom.Script.Pattern

/-!
Functions: their parameters, their bodies, and the functions of the type language that have no body.
-/

namespace Loom.Script.Function

open Loom.Script.Parser Modifier

/-- The expression of a decorator. It is no optional chain unless in parentheses. -/
def decorator (g : Grammar) : Parser Unit := do
  let start ← here
  let e ← within ({ · with decorator := true }) g.leftHandSide
  if let some (.chainExpression _) ← bareKind? e then complain start

variable (g : Grammar)

/-- Expressions after at signs. They leave no nodes in the tree. With them, the places of the
signs. -/
def decorators : Parser (List Nat) := do
  let found ← iterate (fun (places : List Nat) => do
    let place ← here
    if ← take "@" then
      decorator g
      return some (place :: places)
    else return none) []
  return found.reverse

/-! ## Parameters -/

/-- Complains about the modifiers of a parameter, of which only a constructor makes properties. -/
def checkModifiers (owner : ParameterOwner) (modifiers : List Modifier) : Parser Unit := do
  if (← typescript) && owner = .constructor then
    allow ("readonly" :: "override" :: accessibility) modifiers
  else allow [] modifiers

/-- Complains about decorators outside of classes, and without types about all of them. -/
def checkDecorators (owner : ParameterOwner) (places : List Nat) : Parser Unit := do
  if owner = .function || !(← typescript) then places.forM complain

/-- The parameter that gives the type of `this`, which leaves no node. The comma after it may be
missing. -/
def thisParameter : Parser (Option Nat) := do
  if !((← typescript) && (← seesWord "this")) then return none
  let start ← here
  advance
  Type.optionalAnnotation g
  let _ ← take ","
  return some start

def restParameter : Parser (NodeId × Option Nat) :=
  Pattern.restWith g do
    if ← sees "?" then
      complain (← here)
      advance
    Type.optionalAnnotation g

/-- A parameter. With a default, its range starts at its decorators and modifiers. -/
def parameter (owner : ParameterOwner) : Parser (NodeId × Option Nat) := do
  let start ← here
  checkDecorators owner (← decorators g)
  if ← sees "..." then return ← restParameter g
  checkModifiers owner (← ofMember false false)
  let left ← g.pattern
  let isOptional ← if ← typescript then take "?" else pure false
  Type.optionalAnnotation g
  if isOptional && (← sees "=") then complain start
  return (← Pattern.withDefault g start left, none)

def parameters (owner : ParameterOwner) : Parser Parameters := do
  let start ← here
  between "(" ")" do
    let this? ← thisParameter g
    return ⟨start, ← withIn (Pattern.listWithRest ")" (parameter g owner)), this?⟩

/-! ## Bodies -/

def statements : Parser (List NodeId) :=
  between openBrace closeBrace (manyUntil (sees closeBrace) (g.statement false))

def body : Parser NodeId := spanned do
  return .blockStatement (← within ({ · with returnable := true }) (statements g))

inductive Role where
  | declaration
  | expression
  | objectMethod
  | classMethod
  | constructor
deriving DecidableEq, Repr, Inhabited

def Role.form : Role → DefinitionForm
  | .declaration => .declaration
  | _ => .expression

def Role.owner : Role → ParameterOwner
  | .constructor => .constructor
  | .classMethod => .method
  | _ => .function

structure Signature where
  typeParameters : Option Nat
  parameters : Parameters
  result : Option Nat
deriving Inhabited

def signature (owner : ParameterOwner) : Parser Signature := do
  let typeParameters ← Type.optionalParameters g
  let parameters ← g.parameters owner
  return ⟨typeParameters, parameters, ← Type.optionalResult g⟩

/-- A function without a body, where that is allowed: it only declares its name. -/
def withoutBody (start : Nat) (role : Role) (id : Option NodeId) : Parser NodeId := do
  if !(← typescript) || role = .objectMethod then return ← faultAt start
  endStatement
  node start (.typedDeclaration .declareFunction id)

/-- A function from its type parameters on. An expression always has a body. With `declared`, it is
elsewhere. -/
def afterName (start : Nat) (role : Role) (id : Option NodeId)
    (isAsync generator declared : Bool) : Parser (NodeId × Signature) := do
  let inside := fun (c : Context) =>
    { c with inOperator := true, awaitOperator := isAsync, yieldOperator := generator }
  let (found, bodyStart, block) ← within inside do
    let found ← signature g role.owner
    let bodyStart ← here
    return (found, bodyStart, ← optionally (return role = .expression || (← sees openBrace))
      (body g))
  match block with
  | some block =>
    if declared then complain bodyStart
    let params := found.parameters.items
    return (← node start (.function role.form id params block isAsync generator), found)
  | none => return (← withoutBody start role id, found)

def method (role : Role) (isAsync generator : Bool) : Parser (NodeId × Signature) := do
  afterName g (← here) role none isAsync generator false

/-! ## Accessors -/

def isRest (id : NodeId) : Parser Bool := do
  match ← kindOf id with
  | .restElement _ => return true
  | _ => return false

def checkAccessor (s : Signature) : Parser Unit := do
  s.typeParameters.forM complain

def checkGetter (s : Signature) : Parser Unit := do
  if ← s.parameters.items.anyM fun p => return !(← isRest p) then complain s.parameters.start
  checkAccessor s

/-- Complains about the parameters of a setter, which has one and no result. It takes no rest, and
with types no default. -/
def checkSetter (s : Signature) : Parser Unit := do
  match ← s.parameters.items.findM? isRest, s.parameters.items with
  | some rest, _ => complainOf rest
  | none, [param] =>
    if let .assignmentPattern .. ← kindOf param then
      if ← typescript then complain s.parameters.start
  | none, _ => complain s.parameters.start
  checkAccessor s
  s.result.forM complain

/-! ## Functions -/

def starts : Parser Bool := do
  if ← seesWord "function" then return true
  if ← seesWord "async" then nextIs fun l => l.lexeme.isWord "function" && !l.newline
  else return false

/-- A function from its word on, with its modifiers taken. Expressions and default exports may go
without a name, and so may what is declared elsewhere. -/
def afterModifiers (start : Nat) (role : Role) (named : Bool) (modifiers : List Modifier) :
    Parser NodeId := do
  let isAsync := (← takeWord "async") || contains modifiers "async"
  needWord "function"
  let generator ← take "*"
  let inside := fun (c : Context) =>
    if role = .expression then { c with awaitOperator := isAsync, yieldOperator := generator }
      else c
  let id ← within inside (optionally (return (← lexeme).isBinding) bindingName)
  let declared := contains modifiers "declare"
  if named && !declared && id.isNone && (← sees "(") then complain (← here)
  let (found, _) ← afterName g start role id isAsync generator declared
  allow ["declare", "async"] modifiers
  return found

def function (start : Nat) (role : Role) (named : Bool) : Parser NodeId :=
  afterModifiers g start role named []

end Loom.Script.Function
