import Loom.Script.Function

/-!
Arrow functions, and how they are told from expressions in parentheses.

A look at the lexemes after the opening parenthesis decides most cases. Where it cannot, the text is
read as the head of an arrow function, and as an expression if there is no arrow.
-/

namespace Loom.Script.Arrow

open Loom.Script.Parser

inductive Verdict where
  | yes
  | no
  | maybe
deriving DecidableEq, Repr, Inhabited

def verdictIf (b : Bool) (v : Verdict) : Verdict := if b then v else .no

def insideParenthesis : Parser Verdict := do
  let typed ← typescript
  let first ← lexeme
  pass
  match first with
  | .mark ")" =>
    if ← seesAny ["=>", openBrace] then return .yes
    return verdictIf (typed && (← sees ":")) .maybe
  | .mark "[" | .mark "\x7b" => return .maybe
  | .mark "..." =>
    let l ← lexeme
    return if l.isPlainName then .yes else verdictIf (!l.isLiteral) .maybe
  | .word name _ =>
    if Modifier.words.contains name && name != "async" && (← lexeme).isBinding then
      return if ← seesWord "as" then .no else .yes
    if Lexeme.reserved.contains name && name != "this" then return .no
    if ← sees ":" then return .yes
    if ← sees "?" then
      advance
      return verdictIf (← seesAny [":", ",", "=", ")"]) .yes
    return verdictIf (← seesAny [",", "=", ")"]) .maybe
  | _ => return .no

/-- The verdict from the word `async`, a parenthesis or an angle bracket on. -/
def verdictAhead : Parser Verdict := do
  let isAsync ← takeWord "async"
  if isAsync && ((← onNewLine) || !(← seesAny ["(", "<"])) then return .no
  if ← take "(" then insideParenthesis
  else
    advance
    return verdictIf ((← typescript) && ((← lexeme).isBinding || (← seesWord "const"))) .maybe

def verdict : Parser Verdict := do
  if !((← sees "(") || (← sees "<") || (← seesWord "async")) then return .no
  return (verdictAhead.run (← get)).1

structure Head where
  start : Nat
  params : List NodeId
  isAsync : Bool
  typed : Bool

/-- The arrow, which has to stand on the line of what precedes it. -/
def arrow : Parser Unit := do
  if ← onNewLine then complain (← here)
  need "=>"

variable (g : Grammar)

/-- Type parameters, parameters, result and arrow. An arrow function has no `this` to give a type
to. -/
def head : Parser Head := do
  let start ← here
  let isAsync ← takeWord "async"
  within (fun c => { c with awaitOperator := c.awaitOperator || isAsync }) do
    let s ← Function.signature g .function
    s.parameters.this.forM complain
    arrow
    return ⟨start, s.parameters.items, isAsync, s.result.isSome⟩

def body (g : Grammar) (h : Head) (resultTyped : Bool) : Parser NodeId := do
  within ({ · with awaitOperator := h.isAsync, yieldOperator := false }) do
    let isBlock ← sees openBrace
    let content ← if isBlock then Function.body g else g.assignment resultTyped
    node h.start (.arrowFunction h.params content (!isBlock) h.isAsync)

/-- An arrow function, if the text reads as one. In the middle of a conditional expression a typed
result has to be followed by a colon. Where it is none, that is remembered. -/
def possible (resultTyped : Bool) : Parser (Option NodeId) := do
  let start ← here
  if (← get).notArrows.contains start then return none
  let saved ← get
  let stay : Parser (Option NodeId) := do
    set { saved with notArrows := start :: (← get).notArrows }
    return none
  let h ← head g
  if ← atEnd then return ← stay
  let found ← body g h resultTyped
  if !resultTyped && h.typed && !(← sees ":") then return ← stay
  return some found

/-- An arrow function with parenthesized parameters, if one starts here. Where that is certain,
arrow functions in its body may have result types. -/
def parenthesized (resultTyped : Bool) : Parser (Option NodeId) := do
  match ← verdict with
  | .no => return none
  | .yes => return some (← body g (← head g) true)
  | .maybe => possible g resultTyped

/-- Whether a single name follows `async` on its line, and an arrow follows the name. -/
def startsAsyncName : Parser Bool := do
  if !(← seesWord "async") then return false
  lookahead do
    advance
    if (← onNewLine) || !(← lexeme).isBinding then return false
    pass
    sees "=>"

def ofName (start : Nat) (param : NodeId) (isAsync resultTyped : Bool) :
    Parser NodeId := do
  arrow
  body g ⟨start, [param], isAsync, false⟩ resultTyped

end Loom.Script.Arrow
