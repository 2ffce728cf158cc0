import Loom.Host.Error
import Loom.Scope.Basic
import Loom.Token

/-!
Script parsers, as the rest of the library sees them.
-/

namespace Loom

/-- What a script parser finds in a text, in the coordinates of that text. -/
structure HostParse where
  program : NodeId
  tokens : List Token
  comments : List Comment
  scopes : ScopeGraph
deriving Inhabited

/-- A script parser: it adds the nodes of a text to an arena. -/
structure Host where
  parse : Coordinates → HostOptions → Arena → Except HostError (Arena × HostParse)

instance : Inhabited Host := ⟨⟨fun _ _ _ => .error default⟩⟩

end Loom
