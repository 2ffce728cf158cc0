import Loom.Scope.Store
import Loom.Template.Basic
import Loom.Text.Property

/-!
The component dialect, as edits of the scope graph: runes and implicit globals, stores, reactive
declarations, bindings that a parent component writes to, and snippets that a component uses by
name.
-/

namespace Loom.Dialect

/-- The names of the runes, without the dollar sign. -/
def runeWords : List Text :=
  ["state", "derived", "effect", "props", "bindable", "inspect", "host"].map String.toList

/-- The names that are global in runes mode. -/
def runes : List String :=
  ["$state", "$derived", "$effect", "$props", "$bindable", "$inspect", "$host"]

/-- The names that are declared in the top scope outside runes mode. -/
def legacyGlobals : List String := ["$$props", "$$restProps", "$$slots"]

/-- What the dialect found in a document. -/
structure Report where
  runes : Bool
  /-- The names of the variables behind store names. -/
  stores : List String
  reactive : List String
  externallyWritable : List String
deriving DecidableEq, Repr, Inhabited

/-- A member access after the name of a rune: a point and letters. -/
def skipMember : Text → Text
  | '.' :: c :: cs => if c.isAlpha then cs.dropWhile Char.isAlpha else '.' :: c :: cs
  | cs => cs

/-- Whether a text starts with the rest of a rune call, after the name of the rune. -/
def opensCall (cs : Text) : Bool :=
  ((skipMember cs).dropWhile Text.Property.isBlank).head? == some '('

def startsRuneCall : Text → Bool
  | '$' :: cs => runeWords.any fun w => w.isPrefixOf cs && opensCall (cs.drop w.length)
  | _ => false

def hasRuneCall : Text → Bool
  | [] => false
  | c :: cs => startsRuneCall (c :: cs) || hasRuneCall cs

/-- Runes mode: what the options say, else what the configuration says, else whether a script calls
a rune. -/
def detectRunes (source : Text) (d : Template.Document) (option config : Option Bool) : Bool :=
  (option.or config).getD
    (d.scripts.any fun s => ((Text.slice? source s.content).map hasRuneCall).getD false)

/-- The identifiers below a binding pattern that are bound by it. -/
def bindingIdentifiersWithin (a : Arena) : Nat → NodeId → List NodeId
  | 0, _ => []
  | fuel + 1, id =>
    match a.kind id with
    | .identifier _ => [id]
    | .objectPattern properties => properties.flatMap (bindingIdentifiersWithin a fuel)
    | .property _ value .. => bindingIdentifiersWithin a fuel value
    | .arrayPattern elements => (elements.filterMap fun e => e).flatMap
      (bindingIdentifiersWithin a fuel)
    | .assignmentPattern left _ => bindingIdentifiersWithin a fuel left
    | .restElement argument => bindingIdentifiersWithin a fuel argument
    | _ => []

variable (a : Arena)

/-- The identifiers that a pattern binds, in source order. -/
def bindingIdentifiers (pattern : NodeId) : List NodeId :=
  bindingIdentifiersWithin a a.size pattern

/-- Declares a name when a free reference uses it. -/
def declareGlobal (s : ScopeId) (g : ScopeGraph) (name : String) : ScopeGraph :=
  if (g.throughNames ScopeGraph.globalScope).contains name then (g.declareImplicit s name).2 else g

/-- The left side of a reactive assignment: `$: left = …`. -/
def reactiveTarget? (statement : NodeId) : Option NodeId :=
  match a.kind statement with
  | .labeledStatement label body =>
    if a.identifierName? label == some "$" then
      match a.kind body with
      | .expressionStatement e =>
        match a.kind e with
        | .operatorExpression .assignment "=" left _ => some left
        | _ => none
      | _ => none
    else none
  | _ => none

/-- The reference that an identifier of the text itself makes. -/
def writtenReference? (g : ScopeGraph) (identifier : NodeId) : Option ReferenceId :=
  (g.referencesTo identifier).find? fun r => !(g.referenceAt r).isVirtual

/-- Declares the target of a reactive assignment when nothing else does; answers with its name. -/
def declareTarget (top : ScopeId) (g : ScopeGraph) (identifier : NodeId) :
    List String × ScopeGraph :=
  match writtenReference? g identifier with
  | some r =>
    if (g.referenceAt r).resolved.isSome then ([], g)
    else
      match g.declareReactive a top identifier with
      | (some _, g) => ((a.identifierName? identifier).toList, g)
      | (none, g) => ([], g)
  | none => ([], g)

def declareReactiveStatements (program : NodeId) (top : ScopeId) (g : ScopeGraph) :
    List String × ScopeGraph :=
  let targets := (a.children program).flatMap fun s =>
    ((reactiveTarget? a s).map (bindingIdentifiers a)).getD []
  targets.foldl (fun (names, g) i =>
    let (more, g) := declareTarget a top g i
    (names ++ more, g)) ([], g)

def isPropsCall (init : Option NodeId) : Bool :=
  match init.map a.kind with
  | some (.callExpression callee ..) => a.identifierName? callee == some "$props"
  | _ => false

/-- The identifiers that a declarator gives to the parent component. -/
def declaratorProps (runesMode : Bool) (declarator : NodeId) : List NodeId :=
  match a.kind declarator with
  | .variableDeclarator id init =>
    if runesMode && !isPropsCall a init then [] else bindingIdentifiers a id
  | _ => []

/-- The declaration in which a statement may declare properties of the component. -/
def propsDeclaration? (runesMode : Bool) (statement : NodeId) : Option NodeId :=
  match a.kind statement with
  | .exportNamedDeclaration (some d) .. => if runesMode then none else some d
  | .variableDeclaration .. => if runesMode then some statement else none
  | _ => none

def statementProps (runesMode : Bool) (statement : NodeId) : List NodeId :=
  match (propsDeclaration? a runesMode statement).map a.kind with
  | some (.variableDeclaration kind declarations) =>
    if kind == .const && !runesMode then []
    else declarations.flatMap (declaratorProps a runesMode)
  | _ => []

/-- The place of a two-way binding: its identifier, and the scope that it is used in. -/
def boundTarget? (g : ScopeGraph) (id : NodeId) : Option (NodeId × ScopeId) :=
  match a.kind id with
  | .markupDirective .bind _ _ _ (some e) =>
    if (a.identifierName? e).isSome then
      (writtenReference? g e).map fun r => (e, (g.referenceAt r).source)
    else none
  | _ => none

/-- Adds a write from outside; answers with the name. -/
def markWritable (g : ScopeGraph) (target : NodeId × ScopeId) : List String × ScopeGraph :=
  match a.identifierName? target.1 with
  | some name =>
    match g.findVariable target.2 name with
    | some v => ([name], (g.synthesizeReference target.1 v target.2 .write).2)
    | none => ([], g)
  | none => ([], g)

/-- Properties and targets of two-way bindings are written to by the parent component. -/
def markExternallyWritable (program : NodeId) (top : ScopeId) (runesMode : Bool)
    (g : ScopeGraph) : List String × ScopeGraph :=
  let props := (a.children program).flatMap (statementProps a runesMode)
  let bound := (a.descendants program).filterMap (boundTarget? a g)
  (props.map (·, top) ++ bound).foldl (fun (names, g) t =>
    let (more, g) := markWritable a g t
    (names ++ more, g)) ([], g)

/-- Adds a read of a snippet that stands inside a component. -/
def markSnippet (g : ScopeGraph) (child : NodeId) : ScopeGraph :=
  match a.kind child with
  | .markupSnippetBlock (some name) .. =>
    match (g.acquire? child).bind fun s => (g.scopeAt s).upper with
    | some upper =>
      match (a.identifierName? name).bind (g.findVariable upper) with
      | some v => (g.synthesizeReference name v upper .read).2
      | none => g
    | none => g
  | _ => g

def markSnippets (program : NodeId) (g : ScopeGraph) : ScopeGraph :=
  let children := (a.descendants program).flatMap fun id =>
    match a.kind id with
    | .markupElement _ .component _ _ children => children
    | _ => []
  children.foldl (markSnippet a) g

def apply (program : NodeId) (runesMode : Bool) (g : ScopeGraph) : Report × ScopeGraph :=
  let top := g.topScope
  let g :=
    if runesMode then runes.foldl (declareGlobal ScopeGraph.globalScope) g
    else legacyGlobals.foldl (declareGlobal top) g
  let (stores, g) := g.resolveStores
  let (reactive, g) :=
    if runesMode then ([], g) else declareReactiveStatements a program top g
  let (externallyWritable, g) := markExternallyWritable a program top runesMode g
  (⟨runesMode, stores, reactive, externallyWritable⟩, markSnippets a program g)

end Loom.Dialect
