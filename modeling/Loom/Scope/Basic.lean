import Loom.Tree.Arena

/-!
Scope graphs: the lexical scopes of a tree, the variables they declare, and the references to them.

Objects are numbered in the order of their creation. A removed object keeps its number and is only
marked, so numbers stay valid. Every scope lists the references made in it and those that pass
*through* it: references from it or from below that it does not bind itself.
-/

namespace Loom

abbrev ScopeId := Nat
abbrev VariableId := Nat
abbrev ReferenceId := Nat

inductive ScopeKind where
  | global
  | module
  | function
  | block
  | catch
  | for
  | switch
  | classBody
  | classStaticBlock
deriving DecidableEq, Repr, Inhabited

namespace ScopeKind

def all : List ScopeKind :=
  [.global, .module, .function, .block, .catch, .for, .switch, .classBody, .classStaticBlock]

def name : ScopeKind → String
  | .global => "global"
  | .module => "module"
  | .function => "function"
  | .block => "block"
  | .catch => "catch"
  | .for => "for"
  | .switch => "switch"
  | .classBody => "class"
  | .classStaticBlock => "class-static-block"

/-- The scopes that `var` declarations belong to. -/
def isVariableScope : ScopeKind → Bool
  | .global | .module | .function | .classStaticBlock => true
  | _ => false

end ScopeKind

inductive DefinitionKind where
  | variable
  | parameter
  | functionName
  | className
  | importBinding
  | catchClause
  | implicitGlobal
deriving DecidableEq, Repr, Inhabited

namespace DefinitionKind

def all : List DefinitionKind :=
  [.variable, .parameter, .functionName, .className, .importBinding, .catchClause, .implicitGlobal]

def name : DefinitionKind → String
  | .variable => "Variable"
  | .parameter => "Parameter"
  | .functionName => "FunctionName"
  | .className => "ClassName"
  | .importBinding => "ImportBinding"
  | .catchClause => "CatchClause"
  | .implicitGlobal => "ImplicitGlobal"

end DefinitionKind

structure Definition where
  kind : DefinitionKind
  name : NodeId
deriving DecidableEq, Repr, Inhabited

inductive Access where
  | read
  | write
  | readWrite
deriving DecidableEq, Repr, Inhabited

namespace Access

def all : List Access := [.read, .write, .readWrite]

def name : Access → String
  | .read => "r"
  | .write => "w"
  | .readWrite => "rw"

/-- An access that neither reads nor writes counts as a read. -/
def ofFlags : Bool → Bool → Access
  | true, true => .readWrite
  | false, true => .write
  | _, false => .read

end Access

structure Scope where
  kind : ScopeKind
  /-- The node that the scope belongs to. -/
  block : NodeId
  upper : Option ScopeId
  children : List ScopeId
  /-- The nearest scope, from this one upward, that `var` declarations belong to. -/
  variableScope : ScopeId
  vars : List VariableId
  set : List (String × VariableId)
  references : List ReferenceId
  through : List ReferenceId
  removed : Bool
deriving Inhabited, Repr

structure Variable where
  name : String
  scope : ScopeId
  identifiers : List NodeId
  defs : List Definition
  references : List ReferenceId
  removed : Bool
deriving Inhabited, Repr

structure Reference where
  identifier : NodeId
  name : String
  /-- The scope that the reference is made in. -/
  source : ScopeId
  resolved : Option VariableId
  access : Access
  /-- A write that gives a declared variable its first value. -/
  init : Bool
  /-- Made up rather than written in the text. -/
  isVirtual : Bool
  removed : Bool
deriving Inhabited, Repr

/-- Lists of numbers filed under nodes, each list in the order of filing. -/
abbrev NodeIndex := List (NodeId × List Nat)

namespace NodeIndex

def get (x : NodeIndex) (n : NodeId) : List Nat := (x.lookup n).getD []

def push (x : NodeIndex) (n : NodeId) (i : Nat) : NodeIndex :=
  match x with
  | [] => [(n, [i])]
  | (m, is) :: rest => if m = n then (m, is ++ [i]) :: rest else (m, is) :: push rest n i

/-- Takes a number out from under a node; a node with nothing under it is not kept. -/
def remove (x : NodeIndex) (n : NodeId) (i : Nat) : NodeIndex :=
  match x with
  | [] => []
  | (m, is) :: rest =>
    if m = n then
      let kept := is.filter (· != i)
      if kept.isEmpty then rest else (m, kept) :: rest
    else (m, is) :: remove rest n i

end NodeIndex

structure ScopeGraph where
  scopes : Array Scope
  vars : Array Variable
  references : Array Reference
  /-- The scopes of each node, outermost first. -/
  nodeScopes : NodeIndex
  /-- The references of each identifier, in the order of their creation. -/
  identifierReferences : NodeIndex
deriving Inhabited

namespace ScopeGraph

def empty : ScopeGraph := ⟨#[], #[], #[], [], []⟩

variable (g : ScopeGraph)

def scopeAt (s : ScopeId) : Scope := g.scopes.getD s default

def variableAt (v : VariableId) : Variable := g.vars.getD v default

def referenceAt (r : ReferenceId) : Reference := g.references.getD r default

def modifyScope (s : ScopeId) (f : Scope → Scope) : ScopeGraph :=
  { g with scopes := g.scopes.modify s f }

def modifyVariable (v : VariableId) (f : Variable → Variable) : ScopeGraph :=
  { g with vars := g.vars.modify v f }

def modifyReference (r : ReferenceId) (f : Reference → Reference) : ScopeGraph :=
  { g with references := g.references.modify r f }

def declared? (s : ScopeId) (name : String) : Option VariableId :=
  (g.scopeAt s).set.lookup name

/-- A scope followed by the scopes above it, as far as the fuel goes. -/
def ancestorsWithin (g : ScopeGraph) : Nat → ScopeId → List ScopeId
  | 0, _ => []
  | fuel + 1, s =>
    match (g.scopeAt s).upper with
    | none => [s]
    | some u => s :: g.ancestorsWithin fuel u

/-- A scope followed by the scopes above it. A chain has at most as many scopes as the graph. -/
def ancestors (s : ScopeId) : List ScopeId := g.ancestorsWithin g.scopes.size s

/-- The variable that a name means in a scope. -/
def findVariable (s : ScopeId) (name : String) : Option VariableId :=
  (g.ancestors s).findSome? (g.declared? · name)

/-- The first scope, which is above all others. -/
def globalScope : ScopeId := 0

def moduleScope? : Option ScopeId :=
  if g.scopes.isEmpty then none
  else (g.scopeAt globalScope).children.find? fun s => (g.scopeAt s).kind == .module

/-- The scope of the declarations at the top level. -/
def topScope : ScopeId := g.moduleScope?.getD globalScope

/-- The outermost scope of a node. -/
def acquire? (n : NodeId) : Option ScopeId := (g.nodeScopes.get n).head?

/-- The innermost scope of a node or of the nearest node above it that has one. -/
def innermostWithin (g : ScopeGraph) (a : Arena) : Nat → NodeId → Option ScopeId
  | 0, _ => none
  | fuel + 1, n =>
    match (g.nodeScopes.get n).getLast? with
    | some s => some s
    | none => (a.parent n).bind (g.innermostWithin a fuel)

/-- The innermost scope around a node; the top scope when no node above has one. -/
def innermostScope (a : Arena) (n : NodeId) : ScopeId :=
  (g.innermostWithin a a.size n).getD g.topScope

/-- The references of an identifier that are still there, in the order of their creation. -/
def referencesTo (identifier : NodeId) : List ReferenceId :=
  (g.identifierReferences.get identifier).filter fun r => !(g.referenceAt r).removed

def referenceForIdentifier? (identifier : NodeId) : Option ReferenceId :=
  (g.referencesTo identifier).head?

def throughNames (s : ScopeId) : List String :=
  (g.scopeAt s).through.map fun r => (g.referenceAt r).name

def variableNames (s : ScopeId) : List String :=
  (g.scopeAt s).vars.map fun v => (g.variableAt v).name

def liveScopes : List ScopeId :=
  (List.range g.scopes.size).filter fun s => !(g.scopeAt s).removed

def liveReferences : List ReferenceId :=
  (List.range g.references.size).filter fun r => !(g.referenceAt r).removed

/-- The variables that something live leads to: a scope, by its list or by name, or a reference. -/
def reachableVariables : List VariableId :=
  let fromScopes := g.liveScopes.flatMap fun s =>
    (g.scopeAt s).vars ++ (g.scopeAt s).set.map (·.2)
  let fromReferences := g.liveReferences.filterMap fun r => (g.referenceAt r).resolved
  (List.range g.vars.size).filter fun v =>
    fromScopes.contains v || fromReferences.contains v

/-! Building a graph: scopes, then declarations and references, then the resolution of each
reference. -/

def addScope (kind : ScopeKind) (block : NodeId) (upper : Option ScopeId) :
    ScopeId × ScopeGraph :=
  let id := g.scopes.size
  let variableScope :=
    match upper with
    | some u => if kind.isVariableScope then id else (g.scopeAt u).variableScope
    | none => id
  let g :=
    { g with scopes := g.scopes.push ⟨kind, block, upper, [], variableScope, [], [], [], [], false⟩
      }
  let g :=
    match upper with
    | some u => g.modifyScope u fun s => { s with children := s.children ++ [id] }
    | none => g
  (id, { g with nodeScopes := g.nodeScopes.push block id })

/-- The table with `name` standing for `v`. -/
def setInsert (set : List (String × VariableId)) (name : String) (v : VariableId) :
    List (String × VariableId) :=
  match set with
  | [] => [(name, v)]
  | (n, w) :: rest => if n = name then (n, v) :: rest else (n, w) :: setInsert rest name v

def createVariable (s : ScopeId) (name : String) : VariableId × ScopeGraph :=
  let id := g.vars.size
  let g := { g with vars := g.vars.push ⟨name, s, [], [], [], false⟩ }
  (id, g.modifyScope s fun sc =>
    { sc with vars := sc.vars ++ [id], set := setInsert sc.set name id })

/-- The variable of a name in a scope, made when it is not there yet. -/
def ensureVariable (s : ScopeId) (name : String) : VariableId × ScopeGraph :=
  match g.declared? s name with
  | some v => (v, g)
  | none => g.createVariable s name

def declare (s : ScopeId) (name : String) (identifier : NodeId)
    (kind : DefinitionKind) : VariableId × ScopeGraph :=
  let (v, g) := g.ensureVariable s name
  if (g.variableAt v).identifiers.contains identifier then (v, g)
  else
    (v, g.modifyVariable v fun x =>
      { x with
        identifiers := x.identifiers ++ [identifier]
        defs := x.defs ++ [⟨kind, identifier⟩] })

/-- Files a reference under its identifier and its scope. -/
def pushReference (r : Reference) : ReferenceId × ScopeGraph :=
  let id := g.references.size
  let g :=
    { g with
      references := g.references.push r
      identifierReferences := g.identifierReferences.push r.identifier id }
  (id, g.modifyScope r.source fun s => { s with references := s.references ++ [id] })

/-- Adds a reference that is not resolved yet. -/
def addReference (s : ScopeId) (identifier : NodeId) (name : String)
    (access : Access) (init : Bool) : ReferenceId × ScopeGraph :=
  g.pushReference ⟨identifier, name, s, none, access, init, false, false⟩

/-- Appends to a list what is not in it yet. -/
def pushNew (xs : List Nat) (x : Nat) : List Nat := if xs.contains x then xs else xs ++ [x]

def link (r : ReferenceId) (v : VariableId) : ScopeGraph :=
  (g.modifyReference r ({ · with resolved := some v })).modifyVariable v fun x =>
    { x with references := pushNew x.references r }

/-- Lets a reference pass through a scope. -/
def addThrough (s : ScopeId) (r : ReferenceId) : ScopeGraph :=
  g.modifyScope s fun sc => { sc with through := pushNew sc.through r }

/-- Takes a reference out of the `through` lists of scopes. -/
def dropThrough (scopes : List ScopeId) (r : ReferenceId) : ScopeGraph :=
  scopes.foldl
    (fun g s => g.modifyScope s fun sc => { sc with through := sc.through.filter (· != r) }) g

/-- Binds a reference in the first scope of a path that declares its name; it passes through the
scopes before. -/
def resolveAlong (g : ScopeGraph) (r : ReferenceId) (name : String) :
    List ScopeId → Bool × ScopeGraph
  | [] => (false, g)
  | s :: path =>
    match g.declared? s name with
    | some v => (true, g.link r v)
    | none => (g.addThrough s r).resolveAlong r name path

/-- Binds a reference by its name, looking upward from its scope. -/
def resolve (r : ReferenceId) : Bool × ScopeGraph :=
  g.resolveAlong r (g.referenceAt r).name (g.ancestors (g.referenceAt r).source)

def registerNode (n : NodeId) (s : ScopeId) : ScopeGraph :=
  let index := g.nodeScopes.remove (g.scopeAt s).block s
  let g := g.modifyScope s ({ · with block := n })
  { g with nodeScopes := index.push n s }

end ScopeGraph

end Loom
