import Loom.Scope.Basic

/-!
Edits of a scope graph: the closed set of changes that reconcile the scopes of a script with the
template that it stands for.
-/

namespace Loom.ScopeGraph

/-- The identifiers that a binding pattern binds, in source order. -/
def patternIdentifiersWithin (a : Arena) : Nat → NodeId → List NodeId
  | 0, _ => []
  | fuel + 1, pattern =>
    match a.kind pattern with
    | .identifier _ => [pattern]
    | .objectPattern properties =>
      properties.flatMap fun p =>
        match a.kind p with
        | .property _ value .. => patternIdentifiersWithin a fuel value
        | .restElement argument => patternIdentifiersWithin a fuel argument
        | _ => []
    | .arrayPattern elements =>
      (elements.filterMap id).flatMap (patternIdentifiersWithin a fuel)
    | .assignmentPattern left _ => patternIdentifiersWithin a fuel left
    | .restElement argument => patternIdentifiersWithin a fuel argument
    | _ => []

def patternIdentifiers (a : Arena) (pattern : NodeId) : List NodeId :=
  patternIdentifiersWithin a a.size pattern

variable (g : ScopeGraph)

/-- Takes a reference out of its variable and of all lists of scopes. -/
def unlinkReference (r : ReferenceId) : ScopeGraph :=
  let ref := g.referenceAt r
  let g := g.modifyReference r ({ · with removed := true, resolved := none })
  let g :=
    match ref.resolved with
    | some v => g.modifyVariable v fun x => { x with references := x.references.filter (· != r) }
    | none => g
  let g := g.modifyScope ref.source fun s => { s with references := s.references.filter (· != r) }
  g.dropThrough (g.ancestors ref.source) r

/-- Makes a reference free again: it passes through all the scopes given. -/
def demote (scopes : List ScopeId) (r : ReferenceId) : ScopeGraph :=
  if (g.referenceAt r).removed then g
  else scopes.foldl (·.addThrough · r) (g.modifyReference r ({ · with resolved := none }))

def deleteVariable (v : VariableId) : ScopeGraph :=
  let x := g.variableAt v
  let g := g.modifyVariable v ({ · with removed := true, references := [] })
  let g := g.modifyScope x.scope fun s =>
    { s with
      vars := s.vars.filter (· != v)
      set := s.set.filter fun e => !(e.1 == x.name && e.2 == v) }
  x.references.foldl (fun g r => g.demote (g.ancestors x.scope) r) g

/-- Removes a defining occurrence together with the references at it; a variable without occurrences
is removed. -/
def removeOccurrence (v : VariableId) (identifier : NodeId) : ScopeGraph :=
  let own := (g.variableAt v).references.filter fun r => (g.referenceAt r).identifier == identifier
  let g := own.foldl unlinkReference g
  let g := g.modifyVariable v fun x =>
    { x with
      identifiers := x.identifiers.filter (· != identifier)
      defs := x.defs.filter (·.name != identifier) }
  if (g.variableAt v).identifiers.isEmpty then g.deleteVariable v else g

def removeBinding (a : Arena) (s : ScopeId) (identifier : NodeId) : ScopeGraph :=
  match (a.identifierName? identifier).bind (g.declared? s) with
  | some v => g.removeOccurrence v identifier
  | none => g

/-- Removes one defining occurrence for every identifier that a pattern binds in a scope. -/
def removeVariable (a : Arena) (pattern : NodeId) (s : ScopeId) : ScopeGraph :=
  (patternIdentifiers a pattern).foldl (fun g i => g.removeBinding a s i) g

/-- Removes the reference at an identifier, looked for in the given scope first. When the identifier
also defines the variable, that occurrence goes too. The flag tells whether there was a
reference. -/
def removeReference (identifier : NodeId) (s : ScopeId) : Bool × ScopeGraph :=
  let inScope := (g.scopeAt s).references.find? fun r => (g.referenceAt r).identifier == identifier
  match inScope.or (g.referenceForIdentifier? identifier) with
  | none => (false, g)
  | some r =>
    let resolved := (g.referenceAt r).resolved
    let g := g.unlinkReference r
    match resolved with
    | some v =>
      if (g.variableAt v).identifiers.contains identifier then (true, g.removeOccurrence v identifier)
      else (true, g)
    | none => (true, g)

/-- Marks a scope as removed and takes it out of the index of nodes. -/
def retireScope (s : ScopeId) : ScopeGraph :=
  let g := { g with nodeScopes := g.nodeScopes.remove (g.scopeAt s).block s }
  g.modifyScope s ({ · with removed := true })

/-- Takes a scope out from under its upper scope and retires it. -/
def detachScope (s : ScopeId) : ScopeGraph :=
  let g :=
    match (g.scopeAt s).upper with
    | some u => g.modifyScope u fun sc => { sc with children := sc.children.filter (· != s) }
    | none => g
  g.retireScope s

/-- Removes a scope with everything in it, as deep as the fuel goes. -/
def removeScopeWithin : Nat → ScopeGraph → ScopeId → ScopeGraph
  | 0, g, _ => g
  | fuel + 1, g, s =>
    let g := (g.scopeAt s).children.foldl (removeScopeWithin fuel) g
    let g := (g.scopeAt s).references.foldl unlinkReference g
    let g := (g.scopeAt s).vars.foldl deleteVariable g
    g.detachScope s

/-- Removes a scope, the scopes below it, and everything declared or referenced in them. -/
def removeScope (s : ScopeId) : ScopeGraph := removeScopeWithin g.scopes.size g s

/-- Below `s`, lets scopes that use `old` for their variables use `new`. -/
def moveVariableScopeWithin (old new : ScopeId) : Nat → ScopeGraph → ScopeId → ScopeGraph
  | 0, g, _ => g
  | fuel + 1, g, s =>
    if (g.scopeAt s).variableScope != old then g
    else
      let g := g.modifyScope s ({ · with variableScope := new })
      (g.scopeAt s).children.foldl (moveVariableScopeWithin old new fuel) g

def moveVariableScope (s old new : ScopeId) : ScopeGraph :=
  moveVariableScopeWithin old new g.scopes.size g s

/-- Folds a variable into another one of the same name. -/
def foldVariable (v target : VariableId) : ScopeGraph :=
  let x := g.variableAt v
  let g := g.modifyVariable v
    ({ · with removed := true, identifiers := [], defs := [], references := [] })
  let g := x.references.foldl
    (fun g r => g.modifyReference r ({ · with resolved := some target })) g
  g.modifyVariable target fun t =>
    { t with
      identifiers := t.identifiers ++ x.identifiers
      defs := t.defs ++ x.defs
      references := t.references ++ x.references }

/-- Moves a variable into a scope, or folds it into the variable of the same name that is there. -/
def adoptVariable (s : ScopeId) (v : VariableId) : ScopeGraph :=
  let name := (g.variableAt v).name
  let move (g : ScopeGraph) : ScopeGraph :=
    let g := g.modifyVariable v ({ · with scope := s })
    g.modifyScope s fun sc =>
      { sc with vars := pushNew sc.vars v, set := setInsert sc.set name v }
  match g.declared? s name with
  | some existing => if existing != v then g.foldVariable v existing else move g
  | none => move g

def adoptReference (s : ScopeId) (r : ReferenceId) : ScopeGraph :=
  let g := g.modifyReference r ({ · with source := s })
  g.modifyScope s fun sc => { sc with references := sc.references ++ [r] }

/-- The list of children with others in the place of one of them. -/
def spliceChildren (siblings : List ScopeId) (s : ScopeId) (new : List ScopeId) : List ScopeId :=
  let kept := siblings.filter (· != s)
  let position := min (siblings.findIdx (· == s)) kept.length
  kept.take position ++ new ++ kept.drop position

/-- Removes a scope and puts other scopes in its place. Its variables and references move to the
scope above. A scope that has none above it stays. -/
def replaceScope (s : ScopeId) (new : List ScopeId) : ScopeGraph :=
  match (g.scopeAt s).upper with
  | none => g
  | some upper =>
    let replacement := (g.scopeAt upper).variableScope
    let g := g.modifyScope upper fun sc => { sc with children := spliceChildren sc.children s new }
    let g := new.foldl (fun g c =>
      (g.modifyScope c ({ · with upper := some upper })).moveVariableScope c s replacement) g
    let g := g.modifyScope s fun sc =>
      { sc with children := sc.children.filter fun c => !new.contains c }
    let references := (g.scopeAt s).references
    let g := references.foldl (·.adoptReference upper ·)
      (g.modifyScope s ({ · with references := [] }))
    let vars := (g.scopeAt s).vars
    let g := vars.foldl (·.adoptVariable upper ·)
      (g.modifyScope s ({ · with through := [], vars := [] }))
    let g := g.modifyScope s ({ · with set := [], upper := none })
    g.retireScope s

/-- Finds a place for a reference that used to flow out of a scope now merged elsewhere: `oldUppers`
no longer see it, and `path` are the scopes it now passes. -/
def rerouteReference (oldUppers path : List ScopeId) (g : ScopeGraph) (r : ReferenceId) :
    ScopeGraph :=
  let g := g.dropThrough oldUppers r
  let ref := g.referenceAt r
  if ref.removed then g
  else
    match ref.resolved with
    | some v =>
      let owner := (g.variableAt v).scope
      if path.contains owner then
        (path.takeWhile (· != owner)).foldl (·.addThrough · r) g
      else
        let g := g.modifyVariable v fun x => { x with references := x.references.filter (· != r) }
        let g := g.modifyReference r ({ · with resolved := none })
        (g.resolveAlong r ref.name path).2
    | none => (g.resolveAlong r ref.name path).2

/-- Weaves a scope into another: children, variables and references move over, and what flowed out
of it is bound anew from the destination upward. -/
def mergeScope (source destination : ScopeId) : ScopeGraph :=
  let replacement := (g.scopeAt destination).variableScope
  let children := (g.scopeAt source).children
  let g := children.foldl (fun g c =>
    let g := g.modifyScope c ({ · with upper := some destination })
    let g := g.modifyScope destination fun sc => { sc with children := sc.children ++ [c] }
    g.moveVariableScope c source replacement) (g.modifyScope source ({ · with children := [] }))
  let vars := (g.scopeAt source).vars
  let g := vars.foldl (·.adoptVariable destination ·)
    (g.modifyScope source ({ · with vars := [] }))
  let g := g.modifyScope source ({ · with set := [] })
  let references := (g.scopeAt source).references
  let g := references.foldl (·.adoptReference destination ·)
    (g.modifyScope source ({ · with references := [] }))
  let oldUppers := (g.ancestors source).drop 1
  let path := g.ancestors destination
  let through := (g.scopeAt source).through
  let g := through.foldl (rerouteReference oldUppers path)
    (g.modifyScope source ({ · with through := [] }))
  g.detachScope source

/-- Adds a reference that no identifier of the text makes, bound to a variable. -/
def synthesizeReference (identifier : NodeId) (v : VariableId) (s : ScopeId)
    (access : Access) : ReferenceId × ScopeGraph :=
  let x := g.variableAt v
  let (r, g) := g.pushReference ⟨identifier, x.name, s, some v, access, false, true, false⟩
  let g := g.modifyVariable v fun x => { x with references := x.references ++ [r] }
  let below := (g.ancestors s).takeWhile (· != x.scope)
  (r, below.foldl (·.addThrough · r) g)

/-- Binds the free references of a name that pass through a scope to a variable of that scope. -/
def resolveThrough (s : ScopeId) (name : String) (v : VariableId) : ScopeGraph :=
  let pending := (g.scopeAt s).through.filter fun r =>
    (g.referenceAt r).name == name && (g.referenceAt r).resolved.isNone
  pending.foldl (fun g r => (g.link r v).dropThrough (g.ancestors s) r) g

/-- Takes the free target of a reactive assignment for a declaration; none when the scope already
declares the name. -/
def declareReactive (a : Arena) (s : ScopeId) (identifier : NodeId) :
    Option VariableId × ScopeGraph :=
  match a.identifierName? identifier with
  | none => (none, g)
  | some name =>
    if (g.declared? s name).isSome then (none, g)
    else
      let (v, g) := g.declare s name identifier .variable
      (some v, g.resolveThrough s name v)

/-- Declares a variable without a defining occurrence and binds the free references of its name. -/
def declareImplicit (s : ScopeId) (name : String) : VariableId × ScopeGraph :=
  let (v, g) := g.ensureVariable s name
  (v, g.resolveThrough s name v)

end Loom.ScopeGraph
