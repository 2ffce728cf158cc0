import Loom.Coordinates

/-!
Tokens and comments of a script, each with its value and its place.
-/

namespace Loom

inductive TokenKind where
  | identifier
  | privateIdentifier
  | keyword
  | punctuator
  | numeric
  | string
  | boolean
  | null
  | template
  | regularExpression
deriving DecidableEq, Repr, Inhabited

namespace TokenKind

def all : List TokenKind :=
  [.identifier, .privateIdentifier, .keyword, .punctuator, .numeric, .string, .boolean, .null,
    .template, .regularExpression]

def name : TokenKind → String
  | .identifier => "Identifier"
  | .privateIdentifier => "PrivateIdentifier"
  | .keyword => "Keyword"
  | .punctuator => "Punctuator"
  | .numeric => "Numeric"
  | .string => "String"
  | .boolean => "Boolean"
  | .null => "Null"
  | .template => "Template"
  | .regularExpression => "RegularExpression"

end TokenKind

structure Token where
  kind : TokenKind
  value : String
  range : Range
  loc : Location
deriving DecidableEq, Repr, Inhabited

inductive CommentKind where
  | line
  | block
deriving DecidableEq, Repr, Inhabited

def CommentKind.name : CommentKind → String
  | .line => "Line"
  | .block => "Block"

structure Comment where
  kind : CommentKind
  value : String
  range : Range
  loc : Location
deriving DecidableEq, Repr, Inhabited

/-- Things with a range that can be moved to other coordinates. -/
class Ranged (α : Type) where
  range : α → Range
  place : α → Range → Coordinates → α

instance : Ranged Token where
  range := Token.range
  place t r coords := { t with range := r, loc := coords.location r }

instance : Ranged Comment where
  range := Comment.range
  place c r coords := { c with range := r, loc := coords.location r }

def Token.at (coords : Coordinates) (kind : TokenKind) (value : String) (range : Range) : Token :=
  ⟨kind, value, range, coords.location range⟩

def Comment.at (coords : Coordinates) (kind : CommentKind) (value : String) (range : Range) :
    Comment :=
  ⟨kind, value, range, coords.location range⟩

end Loom
