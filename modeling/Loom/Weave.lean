import Loom.Tree.Arena
import Loom.VirtualScript

/-!
Weaving: building the virtual script of a template document.

The document is walked once. Each markup node, branch, attribute and attribute part becomes a markup
node of the arena, and each embedded expression or pattern is copied into a wrapper statement. The
wrappers nest as the constructs do, so the scoping of the script language follows the scoping of the
template.
-/

namespace Loom

open Template

/-- Ends a copied script block, so that nothing in it can take in what follows. -/
def scriptTerminator : String := "\n;\n"

/-- The parameter of a loop that has an index and no context. -/
def eachPlaceholder : String := "__each_item"

/-- The branches of a markup block that are nodes of their own. -/
inductive BranchRole where
  | otherwise
  | pending
  | fulfilled
  | rejected
deriving DecidableEq, Repr

/-- The kind with a branch node in its place; other kinds stay as they are. -/
def Kind.setBranch (branch : NodeId) : BranchRole → Kind → Kind
  | .otherwise, .markupIfBlock elseIf e children _ =>
    .markupIfBlock elseIf e children (some branch)
  | .otherwise, .markupEachBlock e context index key children _ =>
    .markupEachBlock e context index key children (some branch)
  | .pending, .markupAwaitBlock e _ fulfilled rejected =>
    .markupAwaitBlock e (some branch) fulfilled rejected
  | .fulfilled, .markupAwaitBlock e pending _ rejected =>
    .markupAwaitBlock e pending (some branch) rejected
  | .rejected, .markupAwaitBlock e pending fulfilled _ =>
    .markupAwaitBlock e pending fulfilled (some branch)
  | _, k => k

structure Pending where
  owner : NodeId
  field : SlotField
  range : Range
deriving DecidableEq, Repr, Inhabited

structure Weaver where
  coords : Coordinates
  arena : Arena
  draft : Draft
  /-- The markup nodes at the top level so far. -/
  roots : List NodeId

abbrev Weaving := StateM Weaver

namespace Weaving

def alloc (k : Kind) (r : Range) : Weaving NodeId :=
  modifyGet fun w =>
    let (id, arena) := w.arena.allocAt k r w.coords
    (id, { w with arena })

/-- Puts a node under its parent, or among the roots. -/
def place (parent : Option NodeId) (id : NodeId) : Weaving Unit :=
  modify fun w =>
    match parent with
    | some p => { w with arena := (w.arena.pushChild p id).2 }
    | none => { w with roots := w.roots ++ [id] }

def link (owner : NodeId) (role : BranchRole) (branch : NodeId) : Weaving Unit :=
  modify fun w =>
    let arena := w.arena.setKind owner ((w.arena.kind owner).setBranch branch role)
    { w with arena := arena.setParent branch (some owner) }

def offset : Weaving Nat := do return (← get).draft.offset

def copy (r : Range) : Weaving Range :=
  modifyGet fun w => let (g, draft) := w.draft.copy r; (g, { w with draft })

def copyFragment (owner : NodeId) (field : SlotField) (r : Range) : Weaving Fragment :=
  modifyGet fun w => let (f, draft) := w.draft.copyFragment owner field r; (f, { w with draft })

def synthetic (text : String) : Weaving Unit :=
  modify fun w => { w with draft := w.draft.synthetic text }

def pushTask (start anchor : Nat) (fragments : List Fragment) (action : Action) : Weaving Unit :=
  modify fun w => { w with draft := w.draft.pushTask start anchor fragments action }

def markSentinel : Weaving Unit := modify fun w => { w with draft := w.draft.markSentinel }

def wrapExpression (p : Pending) : Weaving Unit := do
  let start ← offset
  synthetic "("
  let fragment ← copyFragment p.owner p.field p.range
  synthetic ");"
  pushTask start p.range.start [fragment] .expression
  synthetic "\n"

def wrapExpressions : List Pending → Weaving Unit
  | [] => pure ()
  | p :: ps => do
    wrapExpression p
    wrapExpressions ps

/-- Copies further members of a list, each after a comma. -/
def copyMore : List Pending → Weaving (List Fragment)
  | [] => pure []
  | p :: ps => do
    synthetic ", "
    let f ← copyFragment p.owner p.field p.range
    let fs ← copyMore ps
    return f :: fs

def copyList : List Pending → Weaving (List Fragment)
  | [] => pure []
  | p :: ps => do
    let f ← copyFragment p.owner p.field p.range
    let fs ← copyMore ps
    return f :: fs

/-- Wraps content in an arrow function with the given parameters, taken in source order. -/
def wrapCallback (owner : NodeId) (anchor : Nat) (params : List Pending) (content : Weaving Unit) :
    Weaving Unit := do
  let start ← offset
  synthetic "(("
  let fragments ← copyList (params.mergeSort fun x y => x.range.start ≤ y.range.start)
  synthetic ") => \x7b\n"
  content
  synthetic "\x7d);"
  pushTask start anchor fragments (.callback owner)
  synthetic "\n"

/-- Adds the node of one part of an attribute value, and tells what of it has to be wrapped. -/
def attributeValue : AttributeValue → Weaving (NodeId × List Pending)
  | .text r value => do
    let id ← alloc (.markupText value) r
    return (id, [])
  | .mustache r e => do
    let id ← alloc (.markupMustacheTag false none) r
    return (id, [⟨id, .expression, e⟩])

def attributeValues : List AttributeValue → Weaving (List NodeId × List Pending)
  | [] => pure ([], [])
  | v :: vs => do
    let (id, pending) ← attributeValue v
    let (ids, more) ← attributeValues vs
    return (id :: ids, pending ++ more)

/-- An attribute as a node: what of it has to be wrapped, and what it binds for the content. -/
structure WovenAttribute where
  id : NodeId
  pending : List Pending
  bindings : List Pending

def directivePending (id : NodeId) (d : Directive) : List Pending :=
  (if d.kind.nameIsReference then d.nameRange.toList.map (⟨id, .nameExpression, ·⟩) else [])
    ++ (if d.kind = .let then [] else d.effectiveExpression.toList.map (⟨id, .expression, ·⟩))

def directiveBindings (id : NodeId) (d : Directive) : List Pending :=
  if d.kind = .let then d.effectiveExpression.toList.map (⟨id, .expression, ·⟩) else []

def attributeNode : Attribute → Weaving WovenAttribute
  | .plain r name value => do
    let (ids, pending) ← attributeValues value
    let id ← alloc (.markupAttribute name ids) r
    return ⟨id, pending, []⟩
  | .shorthand r name e => do
    let id ← alloc (.markupShorthandAttribute name none) r
    return ⟨id, [⟨id, .expression, e⟩], []⟩
  | .spread r e => do
    let id ← alloc (.markupSpreadAttribute none) r
    return ⟨id, [⟨id, .expression, e⟩], []⟩
  | .directive d => do
    let id ← alloc (.markupDirective d.kind d.name d.modifiers none none) d.range
    return ⟨id, directivePending id d, directiveBindings id d⟩

def attributeNodes : List Attribute → Weaving (List WovenAttribute)
  | [] => pure []
  | a :: rest => do
    let w ← attributeNode a
    let ws ← attributeNodes rest
    return w :: ws

/-- Copies the context and the index of a loop as its parameters; the flag tells of a
placeholder. -/
def eachParameters (id : NodeId) (context index : Option Range) :
    Weaving (List Fragment × Bool) := do
  let first ←
    match context, index with
    | some r, _ => do
      let f ← copyFragment id .context r
      pure ([f], false)
    | none, some _ => do
      synthetic eachPlaceholder
      pure ([], true)
    | none, none => pure ([], false)
  match index with
  | some r => do
    synthetic ", "
    let f ← copyFragment id .index r
    return (first.1 ++ [f], first.2)
  | none => return first

mutual

def node (parent : Option NodeId) : Markup → Weaving Unit
  | .element name kind r nameRange attrs children => do
    let woven ← attributeNodes attrs
    let id ← alloc (.markupElement name kind none (woven.map (·.id)) []) r
    place parent id
    let nameReference := if kind = .component then nameRange.toList else []
    wrapExpressions (nameReference.map (⟨id, .nameExpression, ·⟩))
    wrapExpressions (woven.flatMap (·.pending))
    let bindings := woven.flatMap (·.bindings)
    if bindings.isEmpty then nodes (some id) children
    else wrapCallback id r.start bindings (nodes (some id) children)
  | .text r value => do
    let coords := (← get).coords
    let id ← alloc (.markupText (if value.isEmpty then coords.slice r else value)) r
    place parent id
  | .mustache r e raw => do
    let id ← alloc (.markupMustacheTag raw none) r
    place parent id
    wrapExpression ⟨id, .expression, e⟩
  | .ifBlock r test elseIf children elseBranch => do
    let id ← alloc (.markupIfBlock elseIf none [] none) r
    place parent id
    let start ← offset
    synthetic "if ("
    let fragment ← copyFragment id .expression test
    synthetic ") \x7b\n"
    nodes (some id) children
    let elseOwner ← ifElse id elseBranch
    synthetic "\x7d"
    pushTask start r.start [fragment] (.ifBlock id elseOwner)
    synthetic "\n"
  | .eachBlock r e context index key children elseBranch => do
    let id ← alloc (.markupEachBlock none none none none [] none) r
    place parent id
    let start ← offset
    synthetic "Array.from("
    let fragment ← copyFragment id .expression e
    synthetic ").forEach(("
    let (params, placeholder) ← eachParameters id context index
    synthetic ") => \x7b\n"
    wrapExpressions (key.toList.map (⟨id, .key, ·⟩))
    nodes (some id) children
    synthetic "\x7d);"
    pushTask start r.start (fragment :: params) (.eachBlock id placeholder)
    synthetic "\n"
    plainBranch id .otherwise (.markupElseBlock []) elseBranch
  | .awaitBlock r e pending fulfilled rejected => do
    let id ← alloc (.markupAwaitBlock none none none none) r
    place parent id
    wrapExpression ⟨id, .expression, e⟩
    plainBranch id .pending (.markupAwaitPendingBlock []) pending
    awaitBranch id .fulfilled (.markupAwaitThenBlock none []) .value fulfilled
    awaitBranch id .rejected (.markupAwaitCatchBlock none []) .error rejected
  | .keyBlock r e children => do
    let id ← alloc (.markupKeyBlock none []) r
    place parent id
    wrapExpression ⟨id, .expression, e⟩
    nodes (some id) children
  | .snippetBlock r name params children => do
    let id ← alloc (.markupSnippetBlock none [] []) r
    place parent id
    let start ← offset
    synthetic "function "
    let fragment ← copyFragment id .id name
    synthetic "("
    let fragments ← copyList (params.map (⟨id, .param, ·⟩))
    synthetic ") \x7b\n"
    nodes (some id) children
    synthetic "\x7d"
    pushTask start r.start (fragment :: fragments) (.snippet id)
    synthetic "\n"
  | .constTag r declaration => do
    let id ← alloc (.markupConstTag none) r
    place parent id
    let start ← offset
    synthetic "const "
    let fragment ← copyFragment id .declaration declaration
    synthetic ";"
    pushTask start r.start [fragment] .constTag
    synthetic "\n"
  | .renderTag r e => do
    let id ← alloc (.markupRenderTag none) r
    place parent id
    wrapExpression ⟨id, .expression, e⟩

def nodes (parent : Option NodeId) : List Markup → Weaving Unit
  | [] => pure ()
  | m :: ms => do
    node parent m
    nodes parent ms

/-- Weaves the `else` branch of an `if` block into its wrapper, and tells its node. -/
def ifElse (owner : NodeId) : Option Branch → Weaving (Option NodeId)
  | none => pure none
  | some (.mk r children) => do
    let id ← alloc (.markupElseBlock []) r
    link owner .otherwise id
    synthetic "\x7d else \x7b\n"
    nodes (some id) children
    return some id

def plainBranch (owner : NodeId) (role : BranchRole) (kind : Kind) : Option Branch → Weaving Unit
  | none => pure ()
  | some (.mk r children) => do
    let id ← alloc kind r
    link owner role id
    nodes (some id) children

/-- Weaves a branch that may bind a value. -/
def awaitBranch (owner : NodeId) (role : BranchRole) (kind : Kind) (field : SlotField) :
    Option AwaitBranch → Weaving Unit
  | none => pure ()
  | some (.mk r binding children) => do
    let id ← alloc kind r
    link owner role id
    wrapCallback id r.start (binding.toList.map (⟨id, field, ·⟩)) (nodes (some id) children)

end

def scripts : List ScriptBlock → Weaving Unit
  | [] => pure ()
  | s :: rest => do
    let _ ← copy s.content
    synthetic scriptTerminator
    scripts rest

/-- Weaves a whole document: first the scripts in source order, then the markup. -/
def document (d : Document) : Weaving Unit := do
  scripts (d.scripts.mergeSort fun x y => x.content.start ≤ y.content.start)
  nodes none d.nodes
  markSentinel
  synthetic "\n;"

end Weaving

/-- The outcome of weaving: the arena with the markup nodes, the virtual script, and the markup
nodes at the top level in document order. -/
structure Woven where
  arena : Arena
  script : VirtualScript
  roots : List NodeId

/-- Weaves a document over its source, adding the markup nodes to an arena. -/
def weave (coords : Coordinates) (d : Document) (arena : Arena) : Woven :=
  let w := (Weaving.document d).run ⟨coords, arena, .ofSource coords.text, []⟩
  ⟨w.2.arena, w.2.draft.finish, w.2.roots⟩

end Loom
