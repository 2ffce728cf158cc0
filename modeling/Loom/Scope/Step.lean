import Loom.Scope.Store

/-!
Steps: single operations on a scope graph, so that whole runs of them are data.
-/

namespace Loom

inductive ScopeStep where
  | addScope (kind : ScopeKind) (block : NodeId) (upper : Option ScopeId)
  | declare (scope : ScopeId) (name : String) (identifier : NodeId) (kind : DefinitionKind)
  | addReference (scope : ScopeId) (identifier : NodeId) (name : String) (access : Access)
      (init : Bool)
  | resolve (reference : ReferenceId)
  | registerNode (node : NodeId) (scope : ScopeId)
  | removeVariable (pattern : NodeId) (scope : ScopeId)
  | removeReference (identifier : NodeId) (scope : ScopeId)
  | removeScope (scope : ScopeId)
  /-- Without a list, the scope's own children take its place. -/
  | replaceScope (scope : ScopeId) (children : Option (List ScopeId))
  | mergeScope (source destination : ScopeId)
  | synthesizeReference (identifier : NodeId) (variableId : VariableId) (scope : ScopeId)
      (access : Access)
  | declareReactive (scope : ScopeId) (identifier : NodeId)
  | declareImplicit (scope : ScopeId) (name : String)
  | resolveStores
deriving DecidableEq, Repr

namespace ScopeStep

inductive Answer where
  | nothing
  | id (value : Option Nat)
  | flag (value : Bool)
  | names (values : List String)
deriving DecidableEq, Repr

def perform (a : Arena) (g : ScopeGraph) : ScopeStep → Answer × ScopeGraph
  | .addScope kind block upper => let (s, g) := g.addScope kind block upper; (.id (some s), g)
  | .declare s name identifier kind =>
    let (v, g) := g.declare s name identifier kind
    (.id (some v), g)
  | .addReference s identifier name access init =>
    let (r, g) := g.addReference s identifier name access init
    (.id (some r), g)
  | .resolve r => let (b, g) := g.resolve r; (.flag b, g)
  | .registerNode n s => (.nothing, g.registerNode n s)
  | .removeVariable pattern s => (.nothing, g.removeVariable a pattern s)
  | .removeReference identifier s => let (b, g) := g.removeReference identifier s; (.flag b, g)
  | .removeScope s => (.nothing, g.removeScope s)
  | .replaceScope s children =>
    (.nothing, g.replaceScope s (children.getD (g.scopeAt s).children))
  | .mergeScope source destination => (.nothing, g.mergeScope source destination)
  | .synthesizeReference identifier v s access =>
    let (r, g) := g.synthesizeReference identifier v s access
    (.id (some r), g)
  | .declareReactive s identifier =>
    let (v, g) := g.declareReactive a s identifier
    (.id v, g)
  | .declareImplicit s name => let (v, g) := g.declareImplicit s name; (.id (some v), g)
  | .resolveStores => let (names, g) := g.resolveStores; (.names names, g)

def run (a : Arena) (steps : List ScopeStep) (g : ScopeGraph) : ScopeGraph :=
  steps.foldl (fun g s => (s.perform a g).2) g

/-- The operation with all node numbers raised by `base`. -/
def shiftNodes (base : Nat) : ScopeStep → ScopeStep
  | .addScope kind block upper => .addScope kind (base + block) upper
  | .declare s name identifier kind => .declare s name (base + identifier) kind
  | .addReference s identifier name access init =>
    .addReference s (base + identifier) name access init
  | .registerNode n s => .registerNode (base + n) s
  | .removeVariable pattern s => .removeVariable (base + pattern) s
  | .removeReference identifier s => .removeReference (base + identifier) s
  | .synthesizeReference identifier v s access =>
    .synthesizeReference (base + identifier) v s access
  | .declareReactive s identifier => .declareReactive s (base + identifier)
  | step => step

end ScopeStep

end Loom
