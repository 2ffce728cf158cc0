import Loom.Host.Basic
import Loom.Scope.Step

/-!
Recordings: the finished work of a script parser, to be given out whatever the text is.
-/

namespace Loom

/-- A recorded parse. Node numbers count from the first node of the recording. -/
structure Recording where
  nodes : List (Kind × Range)
  program : NodeId
  tokens : List (TokenKind × String × Range)
  comments : List (CommentKind × String × Range)
  scopes : List ScopeStep

/-- Raises every node number in a kind. -/
def SlotEdit.shift (base : Nat) : SlotEdit where
  one id := base + id
  opt id := id.map (base + ·)
  many ids := ids.map (base + ·)
  manyOpt ids := ids.map (·.map (base + ·))

namespace Recording

/-- Adds the recorded nodes to an arena, with locations in the given text. -/
def allocate (base : Nat) (coords : Coordinates) (nodes : List (Kind × Range)) (a : Arena) :
    Arena :=
  nodes.foldl (fun a n => (a.allocAt (n.1.mapSlots (.shift base)) n.2 coords).2) a

def play (r : Recording) (coords : Coordinates) (a : Arena) : Arena × HostParse :=
  let base := a.size
  let a := allocate base coords r.nodes a
  (a,
    { program := base + r.program
      tokens := r.tokens.map fun t => Token.at coords t.1 t.2.1 t.2.2
      comments := r.comments.map fun c => Comment.at coords c.1 c.2.1 c.2.2
      scopes := ScopeStep.run a (r.scopes.map (·.shiftNodes base)) .empty })

/-- The parser that always answers with the recording. -/
def host (r : Recording) : Host := ⟨fun coords _ a => .ok (r.play coords a)⟩

end Recording

/-- The parser that always fails in the same way. -/
def Host.failing (e : HostError) : Host := ⟨fun _ _ _ => .error e⟩

end Loom
