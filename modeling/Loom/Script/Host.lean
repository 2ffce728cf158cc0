import Loom.Host.Basic
import Loom.Script.Bindings
import Loom.Script.Program

/-!
The built-in parser of scripts, as a host.
-/

namespace Loom.Script

/-- The parts of a program that are one token whatever is inside: regular expressions, and template
parts with their marks. -/
def atoms (arena : Arena) (program : NodeId) : List Atom :=
  let found := (arena.descendants program).filterMap fun id =>
    let r := arena.range id
    match arena.kind id with
    | .literal (.regex ..) _ => some ⟨r, .regularExpression⟩
    | .templateElement _ _ last => some ⟨⟨r.start - 1, r.stop + (if last then 1 else 2)⟩, .template⟩
    | _ => none
  found.mergeSort fun a b => a.range.start ≤ b.range.start

def host : Host where
  parse coords options arena := do
    let parsed ← parse coords options arena
    let tokens ← tokenize coords (atoms parsed.arena parsed.program)
    let comments := parsed.comments.map fun c =>
      Comment.at coords c.kind (coords.slice c.content) c.range
    let scopes := Bindings.scopesOf parsed.arena parsed.program options.sourceType
    return (parsed.arena, ⟨parsed.program, tokens, comments, scopes⟩)

end Loom.Script
