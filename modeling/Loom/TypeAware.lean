import Loom.Analysis
import Loom.VirtualText

/-!
The type-aware pass: the scripts of a component as one plain script that a type checker understands.

Reactive statements and store names are written out as declarations, the text is parsed, everything
is moved back to the source, and a list of processes then undoes each of the changes.
-/

namespace Loom.TypeAware

/-- The function that stands for the reactivity of a declaration. -/
def reactiveHelper : String := "__reactive"

/-- The function that stands for reading a store. -/
def storeHelper : String := "__store_value"

/-- The source ranges of one reactive statement `$: name = right;`. -/
structure ReactiveSite where
  name : String
  statement : Range
  label : Range
  body : Range
  assignment : Range
  left : Range
  right : Range
deriving DecidableEq, Repr, Inhabited

/-- Reads a statement as a reactive one whose target is one of the given names. -/
def ReactiveSite.of? (a : Arena) (names : List String) (statement : NodeId) :
    Option ReactiveSite := do
  let left ← Dialect.reactiveTarget? a statement
  let name ← a.identifierName? left
  if !names.contains name then none
  let .labeledStatement label body := a.kind statement | none
  let .expressionStatement e := a.kind body | none
  let .operatorExpression .assignment _ _ right := a.kind e | none
  some ⟨name, a.range statement, a.range label, a.range body, a.range e, a.range left,
    a.range right⟩

def reactiveSites (r : Analysis) : List ReactiveSite :=
  (r.arena.children r.program).filterMap (ReactiveSite.of? r.arena r.dialect.reactive)

/-- Writes one reactive statement as a declaration around the text of its right side. -/
def lowerSite (d : TextDraft) (s : ReactiveSite) : TextDraft :=
  let d := (d.copyUpTo s.statement.start).skipUpTo s.right.start
  let d := d.insert "reactive" ("let " ++ s.name ++ " = " ++ reactiveHelper ++ "(() => (")
  let d := (d.copyUpTo s.right.stop).skipUpTo s.statement.stop
  d.insert "reactive" "));"

/-- Copies one script, with its reactive statements written as declarations. -/
def lowerScript (sites : List ReactiveSite) (d : TextDraft) (s : Template.ScriptBlock) :
    TextDraft :=
  let d := d.skipUpTo s.content.start
  let d := (sites.filter fun x => s.content.contains x.statement).foldl lowerSite d
  (d.copyUpTo s.content.stop).insert "separator" "\n;\n"

def declareStore (d : TextDraft) (name : String) : TextDraft :=
  d.insert "store" ("\nlet $" ++ name ++ " = " ++ storeHelper ++ "(" ++ name ++ ");")

/-- The scripts, then the stores. -/
def draftText (source : Text) (scripts : List Template.ScriptBlock) (sites : List ReactiveSite)
    (stores : List String) : VirtualText :=
  let d := scripts.foldl (lowerScript sites) (.ofSource source)
  (stores.foldl declareStore d).finish

/-- The scripts in the order of their starts. -/
def sourceOrder (scripts : List Template.ScriptBlock) : List Template.ScriptBlock :=
  scripts.mergeSort fun x y => x.content.start ≤ y.content.start

def draft (source : Text) (first : Analysis) : VirtualText :=
  draftText source (sourceOrder first.scripts) (reactiveSites first) first.dialect.stores

inductive Process where
  | reactive (site : ReactiveSite)
  | storeStandIn (name : String)
deriving DecidableEq, Repr

def Process.name : Process → String
  | .reactive _ => "reactive"
  | .storeStandIn _ => "store-stand-in"

/-- The parts of a `let` declaration whose only declarator is set to a call. -/
def singleLetCall? (a : Arena) (statement : NodeId) : Option (NodeId × NodeId × List NodeId) := do
  let .variableDeclaration .let [declarator] := a.kind statement | none
  let .variableDeclarator id (some init) := a.kind declarator | none
  let .callExpression callee arguments _ := a.kind init | none
  some (id, callee, arguments)

structure ReactiveShape where
  identifier : NodeId
  callee : NodeId
  arrow : NodeId
  expression : NodeId

def reactiveShape? (site : ReactiveSite) (a : Arena) (statement : NodeId) :
    Option ReactiveShape := do
  if (a.range statement).start ≠ site.statement.start then none
  let (identifier, callee, arguments) ← singleLetCall? a statement
  if a.identifierName? identifier ≠ some site.name || a.identifierName? callee ≠
    some reactiveHelper then none
  let [arrow] := arguments | none
  let .arrowFunction [] body true _ := a.kind arrow | none
  some ⟨identifier, callee, arrow, body⟩

/-- Whether a statement is the declaration that stands for a store name. -/
def isStoreShape (name : String) (a : Arena) (statement : NodeId) : Bool :=
  match singleLetCall? a statement with
  | some (identifier, callee, [argument]) =>
    a.identifierName? identifier == some ("$" ++ name) && a.identifierName? callee ==
      some storeHelper && a.identifierName? argument == some name
  | _ => false

def Process.isMatch (p : Process) (a : Arena) (statement : NodeId) : Bool :=
  match p with
  | .reactive site => (reactiveShape? site a statement).isSome
  | .storeStandIn name => isStoreShape name a statement

structure State where
  arena : Arena
  scopes : ScopeGraph
  tokens : List Token

/-- Builds the reactive statement of a site again; answers with its node. -/
def rebuildReactive (coords : Coordinates) (site : ReactiveSite) (shape : ReactiveShape)
    (a : Arena) : NodeId × Arena :=
  let (label, a) := a.allocAt (.identifier "$") site.label coords
  let a := a.setRange shape.identifier site.left coords
  let (assignment, a) := a.allocAt
    (.operatorExpression .assignment "=" shape.identifier shape.expression) site.assignment coords
  let (body, a) := a.allocAt (.expressionStatement assignment) site.body coords
  a.allocAt (.labeledStatement label body) site.statement coords

/-- Undoes a reactive declaration. The tokens of the statement outside its right side are those of
the first analysis. -/
def undoReactive (coords : Coordinates) (program : NodeId) (top : ScopeId)
    (firstTokens : List Token)
    (site : ReactiveSite) (statement : NodeId) (s : State) : Except Failure State := do
  let spot := Spot.of coords site.statement.start
  let some shape :=
    reactiveShape? site s.arena statement | throw (.shape .reactiveChangedShape spot)
  let (labeled, a) := rebuildReactive coords site shape s.arena
  let (true, a) := a.replaceChild program statement labeled
    | throw (.shape .reactiveNotTopLevel spot)
  let g :=
    match s.scopes.acquire? shape.arrow with
    | some scope => s.scopes.mergeScope scope top
    | none => s.scopes
  let g := (g.removeReference shape.callee top).2
  let own := firstTokens.filter fun t =>
    site.statement.contains t.range && !site.right.contains t.range
  return ⟨a, g, Cursor.sortByStart (s.tokens ++ own)⟩

/-- Removes the declaration that stands for a store name. -/
def undoStore (top : ScopeId) (statement : NodeId) (s : State) : State :=
  let identifiers := (s.arena.descendants statement).filter fun id =>
    (s.arena.identifierName? id).isSome
  { s with
    scopes := identifiers.foldl (fun g id => (g.removeReference id top).2) s.scopes
    arena := (s.arena.detach statement).2 }

def Process.undo (coords : Coordinates) (program : NodeId) (top : ScopeId)
    (firstTokens : List Token)
    (p : Process) (statement : NodeId) (s : State) : Except Failure State :=
  match p with
  | .reactive site => undoReactive coords program top firstTokens site statement s
  | .storeStandIn _ => .ok (undoStore top statement s)

/-- Goes through the statements and applies to each the first process that fits it; a process is
used once. Answers with the names of the processes in the order of their use. -/
def undoAll (coords : Coordinates) (program : NodeId) (top : ScopeId) (firstTokens : List Token) :
    List NodeId → List Process → State → Except Failure (List String × State)
  | [], _, s => .ok ([], s)
  | statement :: rest, processes, s =>
    match processes.findIdx? (·.isMatch s.arena statement) with
    | none => undoAll coords program top firstTokens rest processes s
    | some i => do
      let some p := processes[i]? | undoAll coords program top firstTokens rest processes s
      let s ← p.undo coords program top firstTokens statement s
      let (names, s) ← undoAll coords program top firstTokens rest (processes.eraseIdx i) s
      return (p.name :: names, s)

/-- Removes the empty statements that are inserted text. -/
def dropSeparators (t : VirtualText) (program : NodeId) (a : Arena) : Arena :=
  (a.children program).foldl (fun a s =>
    match a.kind s with
    | .emptyStatement => if t.isSynthetic (a.range s) then (a.detach s).2 else a
    | _ => a) a

def projectNode (t : VirtualText) (coords : Coordinates) (a : Arena) (id : NodeId) : Arena :=
  let generated := a.range id
  let at_ := t.errorOffset generated.start
  a.setRange id ((t.mapRange generated).getD ⟨at_, at_⟩) coords

def scriptsRange (scripts : List Template.ScriptBlock) : Range :=
  match scripts.head?, scripts.getLast? with
  | some first, some last => ⟨first.content.start, last.content.stop⟩
  | _, _ => ⟨0, 0⟩

structure Result where
  file : VirtualFile
  arena : Arena
  program : NodeId
  tokens : List Token
  comments : List Comment
  scopes : ScopeGraph
  insertions : List Insertion
  applied : List String

def run (source : Text) (first : Analysis) (host : Host) (options : Options) :
    Except Failure Result := do
  let sites := reactiveSites first
  let scripts := sourceOrder first.scripts
  let text := draft source first
  let coords := Coordinates.ofText source
  let typescript := scripts.any Template.ScriptBlock.isTypescript
  let (a, parsed) ←
    (host.parse (.ofText text.text) (options.hostOptions typescript) .empty).mapError fun e =>
      Failure.embedded e.cause (.of coords (text.errorOffset e.offset))
  let program := parsed.program
  let a := dropSeparators text program a
  let a := ((a.descendants program).drop 1).foldl (projectNode text coords) a
  let a := a.setRange program (scriptsRange scripts) coords
  let tokens := text.project parsed.tokens coords
  let processes := sites.map Process.reactive ++ first.dialect.stores.map Process.storeStandIn
  let (applied, s) ← undoAll coords program parsed.scopes.topScope first.tokens (a.children program)
    processes ⟨a, parsed.scopes, tokens⟩
  let scopes := if applied.contains "store-stand-in" then s.scopes.resolveStores.2 else s.scopes
  return {
    file := .ofText options.filePath typescript text.text
    arena := s.arena
    program
    tokens := s.tokens
    comments := text.project parsed.comments coords
    scopes
    insertions := text.insertions
    applied }

end Loom.TypeAware
