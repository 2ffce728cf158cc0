import Loom.Script.Expression

/-!
Statements, apart from the declarations of modules and types.
-/

namespace Loom.Script.Statement

open Loom.Script.Parser

variable (g : Grammar)

def block : Parser NodeId := spanned do
  return .blockStatement (← Function.statements g)

def condition : Parser NodeId := between "(" ")" (expression g)

/-! ## Variables -/

def isDisposable (kind : VariableKind) : Bool := kind = .using || kind = .awaitUsing

/-- Complains about a pattern where the value is disposed of: only a name can hold that. -/
def checkDisposable (kind : VariableKind) (declarator : NodeId) : Parser Unit := do
  if isDisposable kind then
    if let .variableDeclarator id _ ← kindOf declarator then
      match ← kindOf id with
      | .identifier _ => pure ()
      | _ => complainOf id

/-- Complains about a declarator without the initializer that it has to have. -/
def checkInitializer (kind : VariableKind) (declarator : NodeId) : Parser Unit := do
  if (← context).ambient then return
  if let .variableDeclarator id none ← kindOf declarator then
    match ← kindOf id, kind with
    | .identifier _, .var | .identifier _, .let => pure ()
    | _, _ => complainOf id

def definiteMark (id : NodeId) : Parser Bool := do
  match ← kindOf id with
  | .identifier _ => if (← typescript) && !(← onNewLine) then take "!" else return false
  | _ => return false

def refuseOptional : Parser Unit := do
  if (← typescript) && (← sees "?") then
    complain (← here)
    advance

/-- A pattern with its type and its value. A name that is said to be definite has a type and no
value. -/
def declarator : Parser NodeId := spanned do
  let id ← g.pattern
  let definitePlace ← here
  let isDefinite ← definiteMark id
  refuseOptional
  let typed := (← typescript) && (← sees ":")
  Type.optionalAnnotation g
  let init ← optionally (take "=") (g.assignment true)
  if isDefinite && (init.isSome || !typed) then complain definitePlace
  return .variableDeclarator id init

/-- Declarators between commas, after the word that introduces them. In the head of a loop the
initializers are checked later. -/
def declarators (kind : VariableKind) (inLoop : Bool) : Parser (List NodeId) := do
  let checked : Parser NodeId := do
    let id ← declarator g
    checkDisposable kind id
    if !inLoop then checkInitializer kind id
    return id
  return (← checked) :: (← eachAfter "," checked)

def variableWord : Parser VariableKind := do
  if ← takeWord "var" then return .var
  if ← takeWord "let" then return .let
  if ← takeWord "const" then return .const
  if ← takeWord "using" then return .using
  needWord "await"
  needWord "using"
  return .awaitUsing

def variableDeclaration (g : Grammar) (start : Nat) (single : Bool) : Parser NodeId := do
  let kind ← variableWord
  let found ← declarators g kind false
  endStatement
  if single && kind.isLexical then complain start
  node start (.variableDeclaration kind found)

/-- Whether what `using` introduces can start with the lexeme: a name, or a pattern that is refused
later. -/
def followsUsing (l : Lexed) : Bool :=
  (l.lexeme.isBinding || l.lexeme.isMark openBrace) && !l.newline

def startsUsing : Parser Bool := do
  if ← seesWord "using" then nextIs followsUsing
  else if ← seesWord "await" then
    lookahead do
      advance
      if ← seesWord "using" then nextIs followsUsing else return false
  else return false

def letIsOperand (l : Lexeme) : Bool :=
  l.isAnyMark Expression.assignmentMarks || l.isAnyWord ["in", "instanceof"]
    || (l.isAnyMark Expression.binaryMarks && !l.isAnyMark ["??", "||", "&&"])

def ended (e : Parser NodeId) : Parser NodeId := spanned do
  let e ← e
  endStatement
  return .expressionStatement e

/-- A statement that starts with `let`: a declaration, or an expression where `let` is a name. -/
def letStatement (single : Bool) : Parser NodeId := do
  let l ← nextLexeme
  if letIsOperand l then ended (g.assignment true)
  else if l.isAnyMark [".", "?.", "("] then ended (expression g)
  else if (single && !l.isMark "[") || l.isMark ";" then ended reference
  else variableDeclaration g (← here) single

/-! ## Loops -/

def loopBody : Parser NodeId := g.statement true

def countedLoop (start : Nat) (init : Option NodeId) (isAwait : Bool) : Parser NodeId := do
  need ";"
  if let some id := init then
    if let .variableDeclaration kind ds ← kindOf id then
      if !isDisposable kind then ds.forM (checkInitializer kind)
  let test ← optionally (return !(← sees ";")) (withIn (expression g))
  need ";"
  let update ← optionally (return !(← sees ")")) (withIn (expression g))
  need ")"
  if isAwait then complain start
  node start (.forStatement init test update (← loopBody g))

/-- A loop over values or keys, from the word after its target on. Only values can be waited for. -/
def iteration (start : Nat) (left : NodeId) (isAwait : Bool) : Parser NodeId := do
  if ← takeWord "of" then
    let right ← g.assignment true
    need ")"
    node start (.forOfStatement left right (← loopBody g))
  else
    needWord "in"
    let right ← expression g
    need ")"
    if isAwait then complain start
    node start (.forInStatement left right (← loopBody g))

/-- Whether variables are declared in the head of a loop. After `await`, the word `using` always
does that. -/
def startsLoopVariables : Parser Bool := do
  if ← seesAnyWord ["var", "const"] then return true
  if ← seesWord "let" then
    let l ← nextLexeme
    return l.isName && !l.isWord "in" || l.isAnyMark ["[", openBrace]
  if ← seesWord "await" then return (← nextLexeme).isWord "using"
  if (← seesWord "using") && (← nextLexeme).isWord "of" then
    return ← lookahead do
      advance
      return (← nextLexeme).isAnyMark ["=", ";", ":"]
  startsUsing

/-- The variables in the head of a loop. Those that are disposed of are no keys, and in their values
`in` is an operator. -/
def loopVariables : Parser NodeId := do
  let start ← here
  let kind ← variableWord
  if isDisposable kind then
    let found ← declarators g kind true
    if ← seesWord "in" then complain start
    node start (.variableDeclaration kind found)
  else
    let found ← within ({ · with inOperator := false }) (declarators g kind true)
    node start (.variableDeclaration kind found)

/-- Complains about a loop over values whose target starts with `let`, or is the name `async`. -/
def checkLoopTarget (first : Lexeme) (left : NodeId) (isAwait : Bool) : Parser Unit := do
  if !(← seesWord "of") then return
  match first, ← bareKind? left with
  | .word "let" false, some _ => complainOf left
  | .word "async" false, some (.identifier _) => if !isAwait then complainOf left
  | _, _ => pure ()

def forStatement : Parser NodeId := do
  let start ← here
  advance
  let isAwait ← seesWord "await"
  if isAwait then
    if !(← context).awaitOperator then complain (← here)
    advance
  need "("
  if ← sees ";" then return ← countedLoop g start none isAwait
  if ← startsLoopVariables then
    let left ← loopVariables g
    if ← seesAnyWord ["in", "of"] then return ← iteration g start left isAwait
    return ← countedLoop g start (some left) isAwait
  let first ← lexeme
  let left ← within ({ · with inOperator := false }) (expression g)
  if ← seesAnyWord ["in", "of"] then
    checkLoopTarget first left isAwait
    Pattern.assignTo left
    return ← iteration g start left isAwait
  countedLoop g start (some left) isAwait

/-! ## Other statements -/

def ifStatement (g : Grammar) : Parser NodeId := spanned do
  advance
  let test ← condition g
  let consequent ← g.statement true
  return .ifStatement test consequent (← optionally (takeWord "else") (g.statement true))

def doStatement : Parser NodeId := spanned do
  advance
  let body ← loopBody g
  needWord "while"
  let test ← condition g
  let _ ← take ";"
  return .doWhileStatement body test

def whileStatement (g : Grammar) : Parser NodeId := spanned do
  advance
  let test ← condition g
  return .whileStatement test (← loopBody g)

def withStatement (g : Grammar) : Parser NodeId := spanned do
  advance
  let object ← condition g
  return .withStatement object (← g.statement true)

def jump (kind : Option NodeId → Kind) : Parser NodeId := spanned do
  advance
  let label ← optionally (return !(← canEndStatement)) bindingName
  endStatement
  return kind label

def returnStatement (g : Grammar) : Parser NodeId := do
  let start ← here
  advance
  let argument ← optionally (return !(← canEndStatement)) (withIn (expression g))
  endStatement
  if !(← context).returnable then complain start
  node start (.returnStatement argument)

def throwStatement (g : Grammar) : Parser NodeId := do
  let start ← here
  advance
  if ← onNewLine then complain start
  let argument ← expression g
  endStatement
  node start (.throwStatement argument)

/-- A statement of a case. Values that are disposed of need a block around them. -/
def caseStatement : Parser NodeId := do
  let id ← g.statement false
  if let .variableDeclaration kind _ ← kindOf id then
    if isDisposable kind then complainOf id
  return id

def switchCase (g : Grammar) : Parser NodeId := do
  let start ← here
  if !(← seesAnyWord ["case", "default"]) then return ← unexpected
  let test ← optionally (return !(← takeWord "default")) do
    advance
    expression g
  need ":"
  let found ← manyUntil (do return (← seesAnyWord ["case", "default"]) || (← sees closeBrace))
    (caseStatement g)
  node start (.switchCase test found)

def switchStatement (g : Grammar) : Parser NodeId := spanned do
  advance
  let discriminant ← condition g
  return .switchStatement discriminant
    (← between openBrace closeBrace (manyUntil (sees closeBrace) (switchCase g)))

def catchClause (g : Grammar) : Parser NodeId := spanned do
  advance
  let param ← optionally (sees "(") <| between "(" ")" do
    let found ← g.pattern
    Type.optionalAnnotation g
    return found
  return .catchClause param (← block g)

def tryStatement (g : Grammar) : Parser NodeId := spanned do
  advance
  let body ← block g
  let stop ← lastStop
  let handler ← optionally (seesWord "catch") (catchClause g)
  let finalizer ← optionally (takeWord "finally") (block g)
  if handler.isNone && finalizer.isNone then complain stop
  return .tryStatement body handler finalizer

def emptyStatement : Parser NodeId := spanned do
  advance
  return .emptyStatement

def debuggerStatement : Parser NodeId := spanned do
  advance
  endStatement
  return .debuggerStatement

/-- A function that is a statement. Alone under a condition it is neither `async` nor a
generator. -/
def functionStatement (single : Bool) : Parser NodeId := do
  let start ← here
  let id ← Function.function g start .declaration true
  if let .function _ _ _ _ isAsync generator ← kindOf id then
    if single && (isAsync || generator) then complain start
  return id

def expressionOrLabel : Parser NodeId := spanned do
  let e ← expression g
  if let some (.identifier _) ← bareKind? e then
    if ← take ":" then return .labeledStatement e (← g.statement true)
  endStatement
  return .expressionStatement e

end Loom.Script.Statement
