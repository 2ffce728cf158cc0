import Loom.Cursor
import Loom.Restore.Task

/-!
Restoring: from the parse of a virtual script to the unified tree of its source.

Tasks are matched to nodes by their start on the way down and undone on the way up. What is left of
the scaffolding is removed, what is left of the scripts is moved to the source.
-/

namespace Loom

structure Restorer where
  bench : Workbench
  tasks : List Task
  tokens : Cursor Token
  comments : Cursor Comment
  restoredTokens : List Token
  restoredComments : List Comment

namespace Restorer

/-- The next task, if the node starts at or after it. -/
def nextTask? (s : Restorer) (range : Range) : Option Task × List Task :=
  match s.tasks with
  | t :: rest => if t.range.start ≤ range.start then (some t, rest) else (none, s.tasks)
  | [] => (none, [])

/-- Undoes the wrapper of a task at its statement. -/
def finishTask (coords : Coordinates) (t : Task) (statement : NodeId) (s : Restorer) :
    Except Failure Restorer := do
  let (tokens, tokenCursor) := s.tokens.takeWithin t.range
  let (comments, commentCursor) := s.comments.takeWithin t.range
  let (bench, tokens, comments) ← t.restore coords s.bench statement tokens comments
  return { s with
    bench
    tokens := tokenCursor
    comments := commentCursor
    restoredTokens := s.restoredTokens ++ tokens
    restoredComments := s.restoredComments ++ comments }

mutual

/-- Walks a sub-tree down to the depth given by the fuel. -/
def walk (coords : Coordinates) : Nat → NodeId → Restorer → Except Failure Restorer
  | 0, _, s => .ok s
  | fuel + 1, node, s => do
    let range := s.bench.arena.range node
    let (task, tasks) := s.nextTask? range
    let s := { s with tasks }
    match task with
    | none => walkAll coords fuel (s.bench.arena.children node) s
    | some t =>
      if t.range ≠ range then
        throw (.shape (.wrapperMatched t.range (s.bench.arena.kind node).typeName range)
          (.of coords t.anchor))
      let s ← walkAll coords fuel (s.bench.arena.children node) s
      finishTask coords t node s

def walkAll (coords : Coordinates) (fuel : Nat) : List NodeId → Restorer → Except Failure Restorer
  | [], s => .ok s
  | n :: ns, s => do
    let s ← walk coords fuel n s
    walkAll coords fuel ns s

end

end Restorer

/-- Whether some copied text in a generated range is not blank. -/
def VirtualScript.hasContent (v : VirtualScript) (coords : Coordinates) (r : Range) : Bool :=
  (v.mappedSpans r).any fun span => !(Text.slice coords.text span).all Text.Property.isBlank

namespace Workbench

/-- Moves the nodes of a statement to the source, each at most once. -/
def remap (coords : Coordinates) (v : VirtualScript) :
    List NodeId → Workbench → Except Failure Workbench
  | [], w => .ok w
  | id :: ids, w =>
    if w.visited.contains id then remap coords v ids w
    else
      let generated := w.arena.range id
      match v.mapRange generated with
      | some r =>
        remap coords v ids
          { w with visited := id :: w.visited, arena := w.arena.setRange id r coords }
      | none =>
        .error (.shape (.noSourceText (w.arena.kind id).typeName)
          (.of coords (v.errorOffset generated.start)))

/-- Removes a statement of the scaffolding, or moves a statement of the scripts to the source. -/
def cleanStatement (coords : Coordinates) (v : VirtualScript) (w : Workbench) (statement : NodeId) :
    Except Failure Workbench :=
  let range := w.arena.range statement
  let typeName := (w.arena.kind statement).typeName
  let spot := Spot.of coords (v.errorOffset range.start)
  let dropped := { w with arena := (w.arena.detach statement).2 }
  if v.sentinel < range.stop then
    if range.start < v.sentinel || v.hasContent coords range then
      .error (.unterminated typeName spot)
    else .ok dropped
  else if (v.mapStart range.start).isNone then
    if v.hasContent coords range then .error (.shape (.startsInScaffolding typeName) spot)
    else .ok dropped
  else w.remap coords v (w.arena.descendants statement)

def cleanStatements (coords : Coordinates) (v : VirtualScript) :
    List NodeId → Workbench → Except Failure Workbench
  | [], w => .ok w
  | s :: rest, w => do
    let w ← w.cleanStatement coords v s
    cleanStatements coords v rest w

/-- Puts the markup nodes into the program, everything in source order. -/
def placeRoots (w : Workbench) (program : NodeId) (roots : List NodeId) : Workbench :=
  let a := roots.foldl (fun a r => (a.pushChild program r).2) w.arena
  let ordered := (a.children program).mergeSort fun x y => (a.range x).start ≤ (a.range y).start
  match a.kind program with
  | .program sourceType _ => { w with arena := a.setKind program (.program sourceType ordered) }
  | _ => { w with arena := a }

end Workbench

/-- Maps the items that lie on copied text from start to end; drops the others. -/
def VirtualScript.remapLeftovers [Ranged α] (v : VirtualScript) (coords : Coordinates)
    (items : List α) : List α :=
  items.filterMap fun x => do
    let r := Ranged.range x
    let start ← v.mapStart r.start
    let stop ← v.mapEnd r.stop
    if stop < start || stop - start ≠ r.length then none
    else some (Ranged.place x ⟨start, stop⟩ coords)

/-- The range from the first to the last statement, token or comment. -/
def contentRange (a : Arena) (program : NodeId) (tokens : List Token) (comments : List Comment) :
    Range :=
  let statements := a.children program
  let starts := (statements.head?.map fun id => (a.range id).start).toList
    ++ (tokens.head?.map (·.range.start)).toList ++ (comments.head?.map (·.range.start)).toList
  let stops := (statements.getLast?.map fun id => (a.range id).stop).toList
    ++ (tokens.getLast?.map (·.range.stop)).toList
    ++ (comments.getLast?.map (·.range.stop)).toList
  match starts.min?, stops.max? with
  | some start, some stop => ⟨start, max stop start⟩
  | _, _ => ⟨0, 0⟩

/-- A restored parse: the unified tree and its scopes, the tokens and comments of the source. -/
structure Restored where
  arena : Arena
  scopes : ScopeGraph
  tokens : List Token
  comments : List Comment

/-- Restores the parse of a virtual script. The markup nodes join the statements in the program,
whose range is that of the content. -/
def restore (coords : Coordinates) (v : VirtualScript) (arena : Arena) (scopes : ScopeGraph)
    (program : NodeId) (tokens : List Token) (comments : List Comment) (roots : List NodeId) :
    Except Failure Restored := do
  let s : Restorer := ⟨⟨arena, scopes, []⟩, v.tasks, .ofList tokens, .ofList comments, [], []⟩
  let s ← Restorer.walkAll coords arena.size (arena.children program) s
  if let t :: _ := s.tasks then
    throw (.shape .wrapperMissing (.of coords t.anchor))
  let w ← s.bench.cleanStatements coords v (s.bench.arena.children program)
  let tokens := Cursor.sortByStart
    (s.restoredTokens ++ v.remapLeftovers coords s.tokens.remaining)
  let comments := Cursor.sortByStart
    (s.restoredComments ++ v.remapLeftovers coords s.comments.remaining)
  let w := w.placeRoots program roots
  let range := contentRange w.arena program tokens comments
  return ⟨w.arena.setRange program range coords, w.scopes, tokens, comments⟩

end Loom
