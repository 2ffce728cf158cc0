/-!
Failures of a script parser, placed in the text that it was given.
-/

namespace Loom

/-- Why a script was refused. -/
inductive HostCause where
  /-- The grammar has no reading for the text. -/
  | unexpectedToken
  /-- The text is a script, and has a part that the tree has no node for. -/
  | unsupportedSyntax
  | unterminatedComment
  | unterminatedString
  | unexpectedCharacter (c : Char)
  /-- A cut falls inside a character or past the end of the text. -/
  | cutCharacter
  /-- A scan needs more turns than it was given. -/
  | outOfTurns
  /-- A failure in the words of the parser that reported it. -/
  | reported (message : String)
deriving DecidableEq, Repr, Inhabited

def HostCause.message : HostCause → String
  | .unexpectedToken => "Unexpected token"
  | .unsupportedSyntax => "Unsupported syntax"
  | .unterminatedComment => "Unterminated comment"
  | .unterminatedString => "Unterminated string constant"
  | .unexpectedCharacter c => "Unexpected character '" ++ c.toString ++ "'"
  | .cutCharacter => "Cut inside a character"
  | .outOfTurns => "Out of turns"
  | .reported message => message

structure HostError where
  cause : HostCause
  offset : Nat
deriving DecidableEq, Repr, Inhabited

def HostError.message (e : HostError) : String :=
  e.cause.message ++ " at offset " ++ toString e.offset

end Loom
