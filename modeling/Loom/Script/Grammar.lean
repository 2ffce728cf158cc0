import Loom.Script.Parser

/-!
The rules that the grammar of scripts comes back to, and the names that all parts of it share.

The rules refer to each other in circles. Each rule is therefore a function of the record `Grammar`,
which holds the rules of the next level of nesting, and the levels are tied together at the end.
-/

namespace Loom.Script

inductive TypeForm where
  | array
  | tuple
  | optional
  | nullable
  | other
deriving DecidableEq, Repr, Inhabited

inductive ParameterOwner where
  | function
  | method
  | constructor
deriving DecidableEq, Repr, Inhabited

structure Parameters where
  start : Nat
  items : List NodeId
  /-- The place of the parameter that gives the type of `this`; it is none of the items. -/
  this : Option Nat
deriving Inhabited

structure Grammar where
  /-- A statement; the flag says that it stands where only one statement may. -/
  statement : Bool → Parser NodeId
  /-- An expression without commas; the flag says that an arrow function may have a return type. -/
  assignment : Bool → Parser NodeId
  operand : Nat → Parser NodeId
  unary : Nat → Parser NodeId
  head : Parser NodeId
  leftHandSide : Parser NodeId
  pattern : Parser NodeId
  type : Parser TypeForm
  parameters : ParameterOwner → Parser Parameters
  element : Bool → Parser Unit

instance : Parser.Blank TypeForm := ⟨return .other⟩

instance : Parser.Blank Parameters := ⟨return default⟩

namespace Grammar

/-- The innermost level, where every rule gives up. -/
def exhausted : Grammar where
  statement _ := Parser.unexpected
  assignment _ := Parser.unexpected
  operand _ := Parser.unexpected
  unary _ := Parser.unexpected
  head := Parser.unexpected
  leftHandSide := Parser.unexpected
  pattern := Parser.unexpected
  type := Parser.unexpected
  parameters _ := Parser.unexpected
  element _ := Parser.unexpected

instance : Inhabited Grammar := ⟨exhausted⟩

end Grammar

namespace Parser

def leaf (k : Kind) : Parser NodeId := do
  let range := (← get).current.range
  pass
  nodeAt range k

def wordLeaf (k : Kind) : Parser NodeId := do
  let range := (← get).current.range
  advance
  nodeAt range k

def propertyWord : Parser NodeId := do
  match ← lexeme with
  | .word name _ => leaf (.identifier name)
  | _ => unexpected

def isOperatorWord (name : String) : Parser Bool := do
  let ctx ← context
  return (name == "await" && ctx.awaitOperator) || (name == "yield" && ctx.yieldOperator)

/-- Complains about a name at the offset where the word is an operator. -/
def checkName (name : String) (offset : Nat) : Parser Unit := do
  if ← isOperatorWord name then complain offset

/-- The name of a variable, which is not reserved. It is not taken. -/
def bindableName : Parser (Option String) := do
  match ← lexeme with
  | .word name _ =>
    if Lexeme.reserved.contains name then return ← unexpected
    checkName name (← here)
    return some name
  | _ => unexpected

def bindingName : Parser NodeId := do
  match ← bindableName with
  | some name => leaf (.identifier name)
  | none => blankNode (.identifier "")

def reference : Parser NodeId := bindingName

def literal : Parser NodeId := do
  let raw ← source
  match ← lexeme with
  | .string value => leaf (.literal (.string value) raw)
  | .number value => leaf (.literal (.number value) raw)
  | .bigint =>
    let digits := raw.toList.filter (· ≠ '_')
    leaf (.literal (.bigint (String.ofList (Text.trimEndWhile (· = 'n') digits))) raw)
  | .word "null" _ => wordLeaf (.literal .null raw)
  | .word "true" _ => wordLeaf (.literal (.boolean true) raw)
  | .word "false" _ => wordLeaf (.literal (.boolean false) raw)
  | _ => unexpected

def stringLiteral : Parser NodeId := do
  if (← lexeme).isString then literal else unexpected

/-- Goes on with a template at a closing brace. After a fault the lexer looks for the rest of it at
the end of the text. -/
def continueTemplate : Parser Unit := do
  if ← sees closeBrace then
    modify fun s =>
      match s.fault with
      | none => s.reread s.ahead (Lexer.templatePart s.current.range.start s.ahead)
      | some _ => s.reread [] ⟨.unreadable, 0, [Text.byteSize s.coords.text - 1]⟩

/-- What fills a gap in a template, up to the next part of the template. -/
def substitution (p : Parser α) : Parser α := do
  let found ← p
  continueTemplate
  return found

/-- An expression with commas. In it brackets continue an expression again; if there is no comma,
they do so up to the end of what it is a part of. -/
def expression (g : Grammar) : Parser NodeId := do
  let start ← here
  let outer ← context
  modify fun s => { s with context := { s.context with decorator := false } }
  let first ← g.assignment true
  if !(← sees ",") then return first
  let rest ← eachAfter "," (g.assignment true)
  modify fun s => { s with context := { s.context with decorator := outer.decorator } }
  node start (.sequenceExpression (first :: rest))

/-- The name of a member: a word, a string, a number, or an expression in brackets. The flag tells
whether it is the last of these. -/
def propertyName (g : Grammar) : Parser (NodeId × Bool) := do
  match ← lexeme with
  | .string _ | .number _ | .bigint => return (← literal, false)
  | .mark "[" => return (← between "[" "]" (withIn (g.assignment true)), true)
  | _ => return (← propertyWord, false)

end Parser

end Loom.Script
