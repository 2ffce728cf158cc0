import Loom.Coordinates
import Loom.Host.Error
import Loom.Template.Ranges
import Loom.VirtualScript

/-!
Failures of a parse. Every place in a failure is a place of the source.
-/

namespace Loom

structure Spot where
  index : Nat
  position : Position
deriving DecidableEq, Repr, Inhabited

def Spot.of (coords : Coordinates) (index : Nat) : Spot := ⟨index, coords.position index⟩

/-- How a parsed script can differ from what its scaffolding calls for. -/
inductive ShapeMismatch where
  /-- A wrapper became a node of the wrong type, or one of its parts lies outside its fragment. -/
  | wrapperProduced (action : Action) (typeName : String)
  /-- The node at the place of a wrapper has another range. -/
  | wrapperMatched (wrapper : Range) (typeName : String) (range : Range)
  | wrapperMissing
  | startsInScaffolding (typeName : String)
  | noSourceText (typeName : String)
  | reactiveChangedShape
  | reactiveNotTopLevel
deriving DecidableEq, Repr

def ShapeMismatch.message : ShapeMismatch → String
  | .wrapperProduced action typeName => action.name ++ " wrapper produced " ++ typeName
  | .wrapperMatched wrapper typeName range =>
    "wrapper at " ++ wrapper.render ++ " matched " ++ typeName ++ " at " ++ range.render
  | .wrapperMissing => "wrapper was not produced by the host parser"
  | .startsInScaffolding typeName => typeName ++ " starts inside scaffolding"
  | .noSourceText typeName => typeName ++ " has no original text"
  | .reactiveChangedShape => "reactive rewrite changed shape"
  | .reactiveNotTopLevel => "reactive statement is not top-level"

inductive Failure where
  | embedded (cause : HostCause) (spot : Spot)
  | shape (mismatch : ShapeMismatch) (spot : Spot)
  /-- A statement runs past the end of the document. -/
  | unterminated (typeName : String) (spot : Spot)
  /-- The text of a document or of options is not what it should be. -/
  | malformedInput
  | invalidRange (fault : Template.RangeFault)
  | config (cause : HostCause)
deriving DecidableEq, Repr

namespace Failure

def code : Failure → String
  | .embedded .. => "W-ERR-SYNTAX-001"
  | .shape .. => "W-ERR-SHAPE-001"
  | .unterminated .. => "W-ERR-UNTERMINATED-001"
  | .malformedInput | .invalidRange _ => "W-ERR-INPUT-001"
  | .config _ => "W-ERR-CONFIG-001"

def spot? : Failure → Option Spot
  | .embedded _ s | .shape _ s | .unterminated _ s => some s
  | _ => none

/-- What is wrong, without its kind and place. -/
def detail : Failure → String
  | .embedded cause _ => cause.message
  | .shape mismatch _ => mismatch.message
  | .unterminated typeName _ => typeName ++ " runs past the end of the document"
  | .malformedInput => "malformed text"
  | .invalidRange fault => fault.message
  | .config cause => cause.message

def heading : Failure → String
  | .embedded .. => ""
  | .shape .. => "Unexpected node shape: "
  | .unterminated .. => "Unterminated construct: "
  | .malformedInput | .invalidRange _ => "Invalid input: "
  | .config _ => "Config evaluation failed: "

def message (f : Failure) : String :=
  let place :=
    match f.spot? with
    | some s => " (" ++ toString s.position.line ++ ":" ++ toString s.position.column ++ ")"
    | none => ""
  f.heading ++ f.detail ++ place

end Failure

end Loom
