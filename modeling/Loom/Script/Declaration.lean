import Loom.Script.Statement

/-!
Declarations, with their modifiers and with the type-level declarations of TypeScript. Of the latter
only the name is kept.
-/

namespace Loom.Script.Declaration

open Loom.Script.Parser Modifier

def leadingWords : List String :=
  ["abstract", "accessor", "async", "declare", "private", "protected", "public", "readonly"]

def startsWithin : Nat → Parser Bool
  | 0 => return false
  | fuel + 1 => do
    if ← seesAnyWord ["var", "let", "const", "function", "class", "enum"] then return true
    else if ← seesAnyWord ["interface", "type"] then nextIs fun l => l.lexeme.isBinding && !l.newline
    else if ← seesAnyWord ["module", "namespace"] then
      nextIs fun l => (l.lexeme.isBinding || l.lexeme.isString) && !l.newline
    else if ← seesWord "global" then
      let l ← nextLexeme
      return l.isMark openBrace || l.isPlainName || l.isWord "export"
    else if ← seesWord "import" then
      let l ← nextLexeme
      return l.isBinding || l.isString || l.isAnyMark ["*", openBrace]
    else if ← seesWord "export" then
      pass
      let _ ← takeWord "type"
      if (← seesAny ["=", "*", openBrace, "@"]) || (← seesAnyWord ["default", "as"]) then return true
      startsWithin fuel
    else if ← seesWord "static" then
      pass
      startsWithin fuel
    else if ← seesAnyWord leadingWords then
      pass
      if ← onNewLine then return false
      startsWithin fuel
    else return false

def starts : Parser Bool := do
  if !(← typescript) then return false
  if !((← seesAnyWord leadingWords)
      ||
      (← seesAnyWord ["interface", "type", "module", "namespace", "enum", "global", "static"])) then
    return false
  lookahead (startsWithin 16)

/-! ## The type language -/

variable (g : Grammar)

/-- What an alias stands for. The word for a type that is built in is all of it, unless it is the
name of a namespace. -/
def aliased : Parser Unit := do
  if ← seesWord "intrinsic" then
    pass
    if ← sees "." then
      Type.skipMembers
      Type.optionalArguments g
  else
    let _ ← g.type

def typeAlias (g : Grammar) (start : Nat) : Parser NodeId := do
  advance
  let id ← bindingName
  let _ ← Type.optionalParameters g
  need "="
  aliased g
  endStatement
  node start (.typedDeclaration .typeAlias (some id))

/-- Whether an expression is a name, perhaps in parentheses, or a member of one. -/
def isEntityName (s : State) : Nat → NodeId → Bool
  | 0, _ => false
  | fuel + 1, id =>
    match s.arena.kind id with
    | .identifier _ | .thisExpression => true
    | .memberExpression object key false _ =>
      let isPrivate := match s.arena.kind key with
        | .privateIdentifier _ => true
        | _ => false
      !isPrivate && (s.parenthesized.lookup id).isNone && isEntityName s fuel object
    | _ => false

/-- An interface. It extends what has a name, and implements nothing. -/
def interface (g : Grammar) (start : Nat) : Parser NodeId := do
  advance
  let id ← bindingName
  let _ ← Type.optionalParameters g
  let found ← Class.heritage g
  Type.members g
  let s ← get
  for p in found.parents do
    if !isEntityName s s.arena.size p.id then complain p.place
  found.implements.forM complain
  node start (.typedDeclaration .interface (some id))

def isConstantText : Kind → Bool
  | .literal (.string _) _ | .templateLiteral _ [] => true
  | _ => false

/-- The name of a member of an enumeration, which is no number. In brackets it is a string. -/
def enumName : Parser Unit := do
  match ← lexeme with
  | .number _ | .bigint | .template .. => faultAt (← here)
  | _ =>
    let (key, computed) ← propertyName g
    if computed then
      match ← Pattern.parenthesis? key with
      | some place => faultAt place
      | none => if !isConstantText (← kindOf key) then faultOf key

def enumMember : Parser Unit := do
  enumName g
  if ← take "=" then
    let _ ← withIn (g.assignment true)

def enum (g : Grammar) (start : Nat) : Parser NodeId := do
  needWord "enum"
  let id ← bindingName
  let _ ← enclosed openBrace closeBrace (enumMember g)
  node start (.typedDeclaration .enum (some id))

/-- A namespace or a module. Its body leaves no nodes; a module named by a string may go without
one. -/
def module (g : Grammar) (start : Nat) : Parser NodeId := do
  let isModule ← seesWord "module"
  advance
  if isModule && (← lexeme).isString then
    let id ← stringLiteral
    if ← sees openBrace then
      let _ ← Function.statements g
    else endStatement
    node start (.typedDeclaration .module (some id))
  else
    let id ← bindingName
    let _ ← eachAfter "." Type.skipBinding
    let _ ← Function.statements g
    node start (.typedDeclaration .module (some id))

def globalModule (start : Nat) : Parser NodeId := do
  advance
  let _ ← Function.statements g
  node start (.typedDeclaration .global none)

/-- A name for another module or for a part of a namespace, from the equals sign on. -/
def afterImportName (start : Nat) (id : NodeId) : Parser NodeId := do
  need "="
  if ← takeWord "require" then
    let _ ← between "(" ")" stringLiteral
  else Type.qualifiedName
  endStatement
  node start (.typedDeclaration .importEquals (some id))

def importEquals (start : Nat) : Parser NodeId := do
  needWord "import"
  if (← seesWord "type") && (← nextLexeme).isBinding then advance
  afterImportName start (← bindingName)

/-! ## All declarations -/

def classAfter (start : Nat) (modifiers : List Modifier) : Parser NodeId := do
  let id ← Class.classFrom g start .declaration
  allow ["declare", "abstract"] modifiers
  return id

/-- A class that is a statement, which cannot stand where only one statement may. -/
def classStatement (start : Nat) (single : Bool) (modifiers : List Modifier) : Parser NodeId := do
  let id ← classAfter g start modifiers
  if single then complain start
  return id

/-- A declaration of the type language after its modifiers. A name for another module may have
any. -/
def typeAfter (start : Nat) (modifiers : List Modifier) : Parser NodeId := do
  if ← seesWord "import" then return ← importEquals start
  let allowed := if ← seesWord "enum" then ["declare", "const"] else ["declare"]
  let id ←
    if ← seesWord "enum" then enum g start
    else if ← seesWord "interface" then interface g start
    else if ← seesWord "type" then typeAlias g start
    else if ← seesAnyWord ["module", "namespace"] then module g start
    else if ← seesWord "global" then globalModule g start
    else unexpected
  allow allowed modifiers
  return id

def afterModifiers (g : Grammar) (start : Nat) (modifiers : List Modifier) : Parser NodeId := do
  if ← seesWord "class" then classAfter g start modifiers
  else if ← Function.starts then Function.afterModifiers g start .declaration true modifiers
  else if ← seesAnyWord ["var", "let", "const"] then
    let id ← Statement.variableDeclaration g start false
    allow ["declare"] modifiers
    return id
  else if ← typescript then typeAfter g start modifiers
  else unexpected

/-- What the modifiers of a declaration change in its context: what is declared elsewhere needs no
initializers. -/
def inside (modifiers : List Modifier) (c : Context) : Context :=
  { c with ambient := c.ambient || contains modifiers "declare" }

/-- A declaration that is a statement, with its modifiers. Only `async` makes `await` an operator in
it. -/
def declaration (start : Nat) : Parser NodeId := do
  let modifiers ← ofDeclaration
  let change := fun c =>
    { inside modifiers c with awaitOperator := contains modifiers "async" }
  within change (afterModifiers g start modifiers)

/-- A declaration that a module exports. Modifiers are a part of the type language. -/
def exported (start : Nat) : Parser NodeId := do
  let modifiers ← if ← typescript then ofDeclaration else pure []
  within (inside modifiers) (afterModifiers g start modifiers)

def constStatement (start : Nat) (single : Bool) : Parser NodeId := do
  if (← typescript) && (← nextLexeme).isWord "enum" then
    advance
    enum g start
  else Statement.variableDeclaration g start single

end Loom.Script.Declaration
