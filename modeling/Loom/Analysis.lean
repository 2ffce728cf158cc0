import Loom.Config
import Loom.Dialect
import Loom.Host.Basic
import Loom.Restore
import Loom.Template.Decode
import Loom.Tree.Estree
import Loom.Weave

/-!
The analysis of a component: from a source and its template document to the unified tree and its
scopes.
-/

namespace Loom

structure Analysis where
  arena : Arena
  program : NodeId
  tokens : List Token
  comments : List Comment
  scopes : ScopeGraph
  scripts : List Template.ScriptBlock
  dialect : Dialect.Report
  config : Option Config

namespace Analysis

/-- Places the failure of a script parser in the source of a virtual script. -/
def hostFailure (coords : Coordinates) (v : VirtualScript) (e : HostError) : Failure :=
  .embedded e.cause (.of coords (v.errorOffset e.offset))

/-- Evaluates the configuration that the options name. -/
def evaluateConfig (options : Options) : Except Failure (Option Config) :=
  match options.configSource with
  | none => .ok none
  | some source =>
    match Config.evaluate source.toList with
    | .ok c => .ok (some c)
    | .error e => .error (.config e.cause)

/-- Analyses a document: weaves it, has the script parsed, restores the parse and applies the
dialect. -/
def run (source : Text) (d : Template.Document) (host : Host) (options : Options) :
    Except Failure Analysis := do
  if let some fault := d.rangeFault? source then
    throw (.invalidRange fault)
  let config ← evaluateConfig options
  let runesMode := Dialect.detectRunes source d options.runes (config.bind (·.runes))
  let coords := Coordinates.ofText source
  let woven := weave coords d .empty
  let (arena, parsed) ←
    (host.parse (.ofText woven.script.text) (options.hostOptions d.isTypescript)
      woven.arena).mapError
      (hostFailure coords woven.script)
  let restored ← restore coords woven.script arena parsed.scopes parsed.program parsed.tokens
    parsed.comments woven.roots
  let (dialect, scopes) := Dialect.apply restored.arena parsed.program runesMode restored.scopes
  return {
    arena := restored.arena
    program := parsed.program
    tokens := restored.tokens
    comments := restored.comments
    scopes
    scripts := d.scripts
    dialect
    config }

def ofJson (source json : Text) (host : Host) (options : Options) : Except Failure Analysis :=
  match Template.Document.read? json with
  | some d => run source d host options
  | none => .error .malformedInput

def batch (inputs : List (Text × Template.Document)) (host : Host) (options : Options) :
    List (Except Failure Analysis) :=
  inputs.map fun i => run i.1 i.2 host options

def toEstree (r : Analysis) : Estree.Value := Estree.program r.arena r.program r.tokens r.comments

end Analysis

end Loom
