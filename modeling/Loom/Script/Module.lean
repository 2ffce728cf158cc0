import Loom.Script.Declaration

/-!
The import and export declarations of a module.
-/

namespace Loom.Script.Module

open Loom.Script.Parser

def attributeName : Parser NodeId := do
  if (← lexeme).isString then stringLiteral else propertyWord

/-- A name that a module exports: a word, or a string without surrogates that have no partner. -/
def exportName : Parser NodeId := do
  let start ← here
  let isString := (← lexeme).isString
  let written := (← source).toList
  let id ← attributeName
  if isString && Escape.hasLoneSurrogate (written.drop 1).dropLast then complain start
  return id

def seesExportName : Parser Bool := return (← lexeme).isName || (← lexeme).isString

def twin (id : NodeId) : Parser NodeId := do nodeAt (← rangeOf id) (← kindOf id)

/-- The names of a specifier, the second after `as`, and whether it names a type. -/
structure Names where
  first : NodeId
  renamed : Option NodeId
  isType : Bool

/-- The names of a specifier. A leading `type` may be a modifier or a name, and has no escapes. -/
def names : Parser Names := do
  let isType := (← typescript) && (← seesWord "type")
  if isType && (← lexeme).isEscapedKeyword then complain (← here)
  let first ← exportName
  if isType then
    if ← seesWord "as" then
      let firstAs ← exportName
      if ← seesWord "as" then
        let secondAs ← exportName
        if ← seesExportName then return ⟨secondAs, some (← exportName), true⟩
        return ⟨first, some secondAs, false⟩
      if ← seesExportName then return ⟨first, some (← exportName), false⟩
      return ⟨firstAs, none, true⟩
    if ← seesExportName then
      let second ← exportName
      if ← takeWord "as" then return ⟨second, some (← exportName), true⟩
      return ⟨second, none, true⟩
  if ← takeWord "as" then return ⟨first, some (← exportName), false⟩
  return ⟨first, none, false⟩

def checkBinding (id : NodeId) : Parser Unit := do
  match ← kindOf id with
  | .identifier name =>
    let place := (← rangeOf id).start
    if Lexeme.reserved.contains name then return ← faultAt place
    checkName name place
  | _ => faultOf id

def checkType (start : Nat) (found : Names) (typesOnly : Bool) : Parser Unit := do
  if typesOnly && found.isType then complain start

/-- The second name of a specifier, which is the first one again where there is none. -/
def Names.second (found : Names) : Parser NodeId :=
  match found.renamed with
  | some id => return id
  | none => twin found.first

def importSpecifier (typesOnly : Bool) : Parser NodeId := do
  let start ← here
  let found ← names
  let binding ← found.second
  checkBinding binding
  checkType start found typesOnly
  node start (.importSpecifier found.first binding)

def exportSpecifier (typesOnly : Bool) : Parser NodeId := do
  let start ← here
  let found ← names
  let exported ← found.second
  checkType start found typesOnly
  node start (.exportSpecifier found.first exported)

variable (a : Arena)

def exportedText (id : NodeId) : Option String :=
  match a.kind id with
  | .identifier name => some name
  | .literal (.string value) _ => some value
  | _ => none

def attributePair : Parser (Option String × Nat) := do
  let key ← attributeName
  need ":"
  let _ ← stringLiteral
  return (exportedText (← get).arena key, (← rangeOf key).start)

def checkAttributes (seen : List (Option String × Nat)) : List (Option String × Nat) → Parser Unit
  | [] => return ()
  | (name, place) :: more => do
    (seen.lookup name).forM complain
    checkAttributes ((name, place) :: seen) more

/-- Attributes of an imported module. They leave no nodes. -/
def attributes : Parser Unit := do
  if (← seesWord "with") || ((← seesWord "assert") && !(← onNewLine)) then
    advance
    checkAttributes [] (← enclosed openBrace closeBrace attributePair)

def moduleName : Parser NodeId := do
  let id ← stringLiteral
  attributes
  return id

def namespaceSpecifier : Parser NodeId := spanned do
  need "*"
  needWord "as"
  return .importNamespaceSpecifier (← bindingName)

def specifiers (typesOnly : Bool) : Parser (List NodeId) := do
  if ← sees "*" then return [← namespaceSpecifier]
  enclosed openBrace closeBrace (importSpecifier typesOnly)

inductive Phase where
  | types
  | source
  | defer
deriving DecidableEq, Repr

def phase? : Parser (Option Phase) := do
  let phase ← if (← typescript) && (← seesWord "type") then pure Phase.types
    else if ← seesWord "source" then pure .source
    else if ← seesWord "defer" then pure .defer
    else return none
  let isPhase ← lookahead do
    advance
    if ← seesAny ["*", openBrace] then return true
    if ← seesWord "from" then
      advance
      return (← seesWord "from") || (phase = .types && (← sees "="))
    return (← lexeme).isBinding
  return if isPhase then some phase else none

/-- Complains about specifiers that do not go with the phase at the offset: the source of a module
has one name, and what is deferred is all of a module. -/
def checkPhase (phase : Option Phase) (place : Nat) (specifiers : List NodeId) : Parser Unit := do
  let kinds ← specifiers.mapM kindOf
  match phase, kinds with
  | some .source, [.importDefaultSpecifier _] | some .defer,
    [.importNamespaceSpecifier _] => pure ()
  | some .source, _ | some .defer, _ => complain place
  | _, _ => pure ()

/-- A name for another module or for a part of a namespace, which is a part of the type language. -/
def importEquals (start : Nat) (binding : NodeId) : Parser NodeId := do
  let id ← Declaration.afterImportName start binding
  if !(← typescript) then complain start
  return id

/-- An import. One of types has a default or other names, and not both. -/
def importDeclaration : Parser NodeId := do
  let start ← here
  needWord "import"
  if (← lexeme).isString then
    let id ← moduleName
    endStatement
    return ← node start (.importDeclaration [] id)
  let phasePlace ← here
  let phase ← phase?
  let typesOnly := phase = some .types
  if phase.isSome then advance
  let mut found := []
  if (← lexeme).isBinding then
    let binding ← bindingName
    if (phase.isNone || typesOnly) && (← sees "=") then return ← importEquals start binding
    let place := (← rangeOf binding).start
    found := [← nodeAt (← rangeOf binding) (.importDefaultSpecifier binding)]
    if ← take "," then
      if typesOnly then complain place
      found := found ++ (← specifiers typesOnly)
  else found ← specifiers typesOnly
  needWord "from"
  let id ← moduleName
  checkPhase phase phasePlace found
  endStatement
  node start (.importDeclaration found id)

def importIsExpression : Parser Bool := return (← nextLexeme).isAnyMark ["(", "."]

def isReservedInModule (name : String) : Bool :=
  Lexeme.reserved.contains name
    || ["await", "implements", "interface", "package", "private", "protected", "public", "static",
      "yield"].contains name

/-- Complains about a name that is exported from this module and cannot be one of its variables. -/
def checkExported (specifier : NodeId) : Parser Unit := do
  if let .exportSpecifier binding _ ← kindOf specifier then
    match ← kindOf binding with
    | .identifier name => if isReservedInModule name then complainOf binding
    | _ => complainOf binding

/-- Names in braces, and the module that they come from. Without one the word `from` has no
effect. -/
def exportNames (start : Nat) (typesOnly : Bool) : Parser NodeId := do
  let found ← enclosed openBrace closeBrace (exportSpecifier typesOnly)
  let from? ← optionally (return (← takeWord "from") && (← lexeme).isLiteral) moduleName
  if from?.isNone then for s in found do checkExported s
  endStatement
  node start (.exportNamedDeclaration none found from?)

def exportAll (start : Nat) : Parser NodeId := do
  need "*"
  let exported ← optionally (takeWord "as") exportName
  needWord "from"
  let id ← moduleName
  endStatement
  node start (.exportAllDeclaration exported id)

variable (g : Grammar)

/-- Decorators after `export`, of which there are none if some stand before it. -/
def laterDecorators (earlier : List Nat) : Parser (List Nat) := do
  let found ← Function.decorators g
  if !earlier.isEmpty then found.forM complain
  return found

/-- What a module exports by default: a function, a class, an interface, or an expression. -/
def defaultValue (earlier : List Nat) : Parser NodeId := do
  let start ← here
  let decorators := earlier ++ (← laterDecorators g earlier)
  if ← seesWord "class" then return ← Class.classFrom g start .declaration
  if (← seesWord "abstract") && (← nextIs fun l => l.lexeme.isWord "class" && !l.newline) then
    return ← Declaration.classAfter g start (← Modifier.ofDeclaration)
  decorators.forM complain
  if (← seesWord "interface") && !(← nextIs (·.newline)) then return ← Declaration.interface g start
  if ← Function.starts then return ← Function.function g start .declaration false
  let e ← withIn (g.assignment true)
  endStatement
  return e

def exportDefault (start : Nat) (decorators : List Nat) : Parser NodeId := do
  let place ← here
  needWord "default"
  let value ← defaultValue g decorators
  let id ← node start (.exportDefaultDeclaration value)
  modify fun s => { s with defaultExports := (id, place) :: s.defaultExports }
  return id

/-- The only value that a module of the type language exports. -/
def exportAssignment (g : Grammar) (start : Nat) : Parser NodeId := do
  need "="
  let e ← g.assignment true
  endStatement
  node start (.typedExpression .exportAssignment e)

def namespaceExport (start : Nat) : Parser NodeId := do
  needWord "as"
  needWord "namespace"
  let id ← propertyWord
  endStatement
  node start (.typedDeclaration .namespaceExport (some id))

/-- An export of a class with decorators. Whatever stands in the place of its word is taken for
it. -/
def exportDecorated (start : Nat) (earlier : List Nat) : Parser NodeId := do
  let inner ← here
  let _ ← laterDecorators g earlier
  let modifiers ← Modifier.ofMember false false
  advance
  let id ← Class.afterWord g inner .declaration
  Modifier.allow ["declare", "abstract"] modifiers
  node start (.exportNamedDeclaration (some id) [] none)

def exportDeclared (start : Nat) (decorators : List Nat) : Parser NodeId := do
  let id ← Declaration.exported g (← here)
  match ← kindOf id with
  | .class .. => pure ()
  | _ => decorators.forM complain
  node start (.exportNamedDeclaration (some id) [] none)

/-- An export, with the places of the decorators before it, which belong to a class. -/
def exportDeclaration (decorators : List Nat) : Parser NodeId := do
  let start ← here
  needWord "export"
  if ← seesWord "default" then return ← exportDefault g start decorators
  if ← sees "@" then return ← exportDecorated g start decorators
  if ← sees "*" then return ← exportAll start
  if ← sees openBrace then return ← exportNames start false
  if ← typescript then
    if ← sees "=" then return ← exportAssignment g start
    if (← seesWord "as") && (← nextLexeme).isWord "namespace" then
      return ← namespaceExport start
    if (← seesWord "type") && (← nextLexeme).isAnyMark [openBrace, "*"] then
      advance
      if ← sees "*" then return ← exportAll start
      return ← exportNames start true
  exportDeclared g start decorators

/-! ## Exports of one name twice -/

def boundNames (a : Arena) (id : NodeId) : Nat → List (String × Nat)
  | 0 => []
  | fuel + 1 =>
    match a.kind id with
    | .identifier name => [(name, (a.range id).start)]
    | .objectPattern ps => ps.flatMap fun p => boundNames a p fuel
    | .property _ value .. => boundNames a value fuel
    | .arrayPattern es => es.flatMap fun e => e.toList.flatMap fun e => boundNames a e fuel
    | .assignmentPattern left _ => boundNames a left fuel
    | .restElement argument => boundNames a argument fuel
    | .variableDeclaration _ ds => ds.flatMap fun d => boundNames a d fuel
    | .variableDeclarator pattern _ => boundNames a pattern fuel
    | .function _ (some name) .. | .class _ (some name) .. => boundNames a name fuel
    | _ => []

def placedName (id : NodeId) : List (String × Nat) :=
  (exportedText a id).toList.map (·, (a.range id).start)

/-- The names that a statement exports, with their places. The word of a default export is none of
them. -/
def exportedNames (id : NodeId) : List (String × Nat) :=
  match a.kind id with
  | .exportNamedDeclaration declaration found _ =>
    (declaration.toList.flatMap fun d => boundNames a d a.size)
      ++ found.flatMap fun s => match a.kind s with
        | .exportSpecifier _ exported => placedName a exported
        | _ => []
  | .exportAllDeclaration (some exported) _ => placedName a exported
  | _ => []

/-- The place of the first name that is exported a second time, given those seen before. -/
def repeatedName? (seen : List (String × Nat)) : List (String × Nat) → Option Nat
  | [] => none
  | (name, place) :: more =>
    match seen.lookup name with
    | some earlier => some earlier
    | none => repeatedName? ((name, place) :: seen) more

def importedNames (id : NodeId) : List String :=
  match a.kind id with
  | .importDeclaration found _ => found.filterMap fun s => match a.kind s with
    | .importSpecifier _ binding | .importDefaultSpecifier binding => a.identifierName? binding
    | _ => none
  | _ => []

/-- A default export: its place, and whether it only hands on what comes from another module. -/
structure DefaultExport where
  place : Nat
  handsOn : Bool

def defaultExports (s : State) (imported : List String) (id : NodeId) : List DefaultExport :=
  let named := fun (name : NodeId) (handsOn : Bool) =>
    ((placedName s.arena name).filter (·.1 == "default")).map fun n => ⟨n.2, handsOn⟩
  match s.arena.kind id with
  | .exportDefaultDeclaration _ => (s.defaultExports.lookup id).toList.map (⟨·, false⟩)
  | .exportNamedDeclaration _ found source =>
    found.flatMap fun specifier => match s.arena.kind specifier with
      | .exportSpecifier binding exported =>
        let handsOn := source.isSome || (s.arena.identifierName? binding).any imported.contains
        named exported handsOn
      | _ => []
  | .exportAllDeclaration (some exported) _ => named exported true
  | _ => []

/-- The place of a repeated default export: the first that does not hand on another module's, or the
first of all. -/
def repeatedDefault? (s : State) (statements : List NodeId) : Option Nat :=
  let imported := statements.flatMap (importedNames s.arena)
  let found := statements.flatMap (defaultExports s imported)
  let ordered := found.filter (!·.handsOn) ++ found.filter (·.handsOn)
  if found.length > 1 then ordered.head?.map (·.place) else none

end Loom.Script.Module
