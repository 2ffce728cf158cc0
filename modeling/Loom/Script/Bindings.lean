import Loom.Scope.Basic

/-!
The scopes of a script: which names it declares, and where it uses them.

Functions, classes, blocks, loops with variables of their own, switches, catch clauses and static
blocks have scopes; the body of a function shares the scope of the function. Variables declared with
`var` go up to the nearest function. References are bound when all declarations are known, in the
order of their creation.
-/

namespace Loom.Script.Bindings

abbrev Walk := StateM ScopeGraph

structure Declaring where
  scope : ScopeId
  kind : DefinitionKind
  init : Bool

def declare (arena : Arena) (scope : ScopeId) (id : NodeId) (kind : DefinitionKind) : Walk Unit :=
  match arena.identifierName? id with
  | some name => modify fun g => (g.declare scope name id kind).2
  | none => pure ()

def refer (arena : Arena) (scope : ScopeId) (id : NodeId) (access : Access) (init : Bool) :
    Walk Unit :=
  match arena.identifierName? id with
  | some name => modify fun g => (g.addReference scope id name access init).2
  | none => pure ()

def inScope (kind : ScopeKind) (block : NodeId) (upper : ScopeId) (walk : ScopeId → Walk Unit) :
    Walk Unit := do
  let (scope, g) := (← get).addScope kind block (some upper)
  set g
  walk scope

def variableScope (kind : VariableKind) (scope : ScopeId) : Walk ScopeId := do
  let g ← get
  return if kind.isLexical then scope else (g.scopeAt scope).variableScope

def isLexical (arena : Arena) (id : NodeId) : Bool :=
  match arena.kind id with
  | .variableDeclaration kind _ => kind.isLexical
  | _ => false

/-- The declarations and references of a node and what is below it. -/
structure Walker where
  visit : ScopeId → NodeId → Walk Unit
  bind : ScopeId → Declaring → NodeId → Walk Unit
  assign : ScopeId → NodeId → Walk Unit

namespace Walker

variable (w : Walker)

/-- Declares the names of a pattern. Its defaults and its keys in brackets are expressions. -/
def bindPattern (arena : Arena) (scope : ScopeId) (d : Declaring) (id : NodeId) : Walk Unit := do
  match arena.kind id with
  | .identifier _ =>
    declare arena d.scope id d.kind
    if d.init then refer arena scope id .write true
  | .objectPattern properties =>
    for p in properties do
      match arena.kind p with
      | .property key value _ computed _ _ =>
        if computed then w.visit scope key
        w.bind scope d value
      | .restElement argument => w.bind scope d argument
      | _ => pure ()
  | .arrayPattern elements => for e in elements.filterMap (·) do w.bind scope d e
  | .restElement argument => w.bind scope d argument
  | .assignmentPattern left right =>
    w.bind scope d left
    w.visit scope right
  | _ => pure ()

/-- Writes the names of a pattern; what is not a name is an expression. -/
def assignPattern (arena : Arena) (scope : ScopeId) (id : NodeId) : Walk Unit := do
  match arena.kind id with
  | .identifier _ => refer arena scope id .write false
  | .objectPattern properties =>
    for p in properties do
      match arena.kind p with
      | .property key value _ computed _ _ =>
        if computed then w.visit scope key
        w.assign scope value
      | .restElement argument => w.assign scope argument
      | _ => pure ()
  | .arrayPattern elements => for e in elements.filterMap (·) do w.assign scope e
  | .restElement argument => w.assign scope argument
  | .assignmentPattern left right =>
    w.assign scope left
    w.visit scope right
  | _ => w.visit scope id

def visitAll (scope : ScopeId) (ids : List NodeId) : Walk Unit :=
  ids.forM (w.visit scope)

def visitMember (scope : ScopeId) (key : NodeId) (value : Option NodeId) (computed : Bool) :
    Walk Unit := do
  if computed then w.visit scope key
  w.visitAll scope value.toList

def visitVariables (arena : Arena) (scope : ScopeId) (kind : VariableKind)
    (declarations : List NodeId) : Walk Unit := do
  let owner ← variableScope kind scope
  for d in declarations do
    match arena.kind d with
    | .variableDeclarator id init =>
      w.bind scope ⟨owner, .variable, init.isSome⟩ id
      w.visitAll scope init.toList
    | _ => pure ()

/-- Parameters and body of a function. The statements of the body belong to the scope of the
function. -/
def visitFunction (arena : Arena) (scope : ScopeId) (params : List NodeId) (body : NodeId) :
    Walk Unit := do
  params.forM (w.bind scope ⟨scope, .parameter, false⟩)
  match arena.kind body with
  | .blockStatement statements => w.visitAll scope statements
  | _ => w.visit scope body

/-- The head of a loop over values or keys, each of which is written. -/
def visitLoopHead (arena : Arena) (scope : ScopeId) (left : NodeId) : Walk Unit := do
  match arena.kind left with
  | .variableDeclaration kind declarations =>
    let owner ← variableScope kind scope
    for d in declarations do
      match arena.kind d with
      | .variableDeclarator id _ => w.bind scope ⟨owner, .variable, true⟩ id
      | _ => pure ()
  | _ => w.assign scope left

/-- A loop, in a scope of its own if it declares variables of its own. -/
def visitLoop (arena : Arena) (scope : ScopeId) (loop : NodeId) (head : Option NodeId)
    (parts : ScopeId → Walk Unit) : Walk Unit :=
  if head.any (isLexical arena) then inScope .for loop scope parts else parts scope

def visitClass (arena : Arena) (scope : ScopeId) (node : NodeId) (form : DefinitionForm)
    (id superClass : Option NodeId) (body : NodeId) : Walk Unit := do
  if form = .declaration then id.toList.forM fun n => declare arena scope n .className
  inScope .classBody node scope fun inner => do
    id.toList.forM fun n => declare arena inner n .className
    w.visitAll inner superClass.toList
    w.visit inner body

def visitImport (arena : Arena) (scope : ScopeId) (specifiers : List NodeId) : Walk Unit :=
  specifiers.forM fun s =>
    match arena.kind s with
    | .importSpecifier _ binding | .importDefaultSpecifier binding | .importNamespaceSpecifier
      binding =>
      declare arena scope binding .importBinding
    | _ => pure ()

def visitExport (arena : Arena) (scope : ScopeId) (specifiers : List NodeId) : Walk Unit :=
  specifiers.forM fun s =>
    match arena.kind s with
    | .exportSpecifier binding _ => refer arena scope binding .read false
    | _ => pure ()

def visitNode (arena : Arena) (scope : ScopeId) (node : NodeId) : Walk Unit := do
  match arena.kind node with
  | .identifier _ => refer arena scope node .read false
  | .variableDeclaration kind declarations => w.visitVariables arena scope kind declarations
  | .function form id params body _ _ =>
    if form = .declaration then id.toList.forM fun n => declare arena scope n .functionName
    inScope .function node scope fun inner => do
      if form = .expression then id.toList.forM fun n => declare arena inner n .functionName
      w.visitFunction arena inner params body
  | .arrowFunction params body _ _ =>
    inScope .function node scope fun inner => w.visitFunction arena inner params body
  | .blockStatement statements => inScope .block node scope fun inner => w.visitAll inner statements
  | .staticBlock statements =>
    inScope .classStaticBlock node scope fun inner => w.visitAll inner statements
  | .forStatement init test update body =>
    visitLoop arena scope node init fun inner =>
      w.visitAll inner (init.toList ++ test.toList ++ update.toList ++ [body])
  | .forInStatement left right body | .forOfStatement left right body =>
    visitLoop arena scope node (some left) fun inner => do
      w.visitLoopHead arena inner left
      w.visitAll inner [right, body]
  | .switchStatement discriminant cases =>
    w.visit scope discriminant
    inScope .switch node scope fun inner => w.visitAll inner cases
  | .catchClause param body =>
    inScope .catch node scope fun inner => do
      param.toList.forM (w.bind inner ⟨inner, .catchClause, false⟩)
      w.visit inner body
  | .class form id superClass body => w.visitClass arena scope node form id superClass body
  | .importDeclaration specifiers _ => visitImport arena scope specifiers
  | .exportNamedDeclaration declaration specifiers source =>
    w.visitAll scope declaration.toList
    if source.isNone then visitExport arena scope specifiers
  | .exportAllDeclaration .. | .metaProperty .. | .breakStatement _ | .continueStatement _ =>
    pure ()
  | .labeledStatement _ body => w.visit scope body
  | .operatorExpression .assignment op left right =>
    if op == "=" then w.assign scope left
    else if (arena.identifierName? left).isSome then refer arena scope left .readWrite false
    else w.visit scope left
    w.visit scope right
  | .updateExpression _ _ argument =>
    if (arena.identifierName? argument).isSome then refer arena scope argument .readWrite false
    else w.visit scope argument
  | .property key value _ computed _ _ => w.visitMember scope key (some value) computed
  | .methodDefinition key value _ computed _ => w.visitMember scope key (some value) computed
  | .propertyDefinition key value computed _ => w.visitMember scope key value computed
  | .memberExpression object key computed _ =>
    w.visit scope object
    if computed then w.visit scope key
  | .typedDeclaration form id =>
    match form with
    | .enum | .importEquals => id.toList.forM fun n => declare arena scope n .variable
    | .declareFunction => id.toList.forM fun n => declare arena scope n .functionName
    | _ => pure ()
  | k => w.visitAll scope k.childIds

def ofDepth (arena : Arena) : Nat → Walker
  | 0 => ⟨fun _ _ => pure (), fun _ _ _ => pure (), fun _ _ => pure ()⟩
  | depth + 1 =>
    let w := ofDepth arena depth
    ⟨w.visitNode arena, w.bindPattern arena, w.assignPattern arena⟩

end Walker

/-- The scope graph of a program. A path in the tree has at most as many nodes as the arena. -/
def scopesOf (arena : Arena) (program : NodeId) (sourceType : SourceType) : ScopeGraph :=
  let (outer, g) := ScopeGraph.empty.addScope .global program none
  let (scope, g) := match sourceType with
    | .module => g.addScope .module program (some outer)
    | .script => (outer, g)
  let statements := match arena.kind program with
    | .program _ body => body
    | _ => []
  let walker := Walker.ofDepth arena arena.size
  let g := ((walker.visitAll scope statements).run g).2
  (List.range g.references.size).foldl (fun g r => (g.resolve r).2) g

end Loom.Script.Bindings
