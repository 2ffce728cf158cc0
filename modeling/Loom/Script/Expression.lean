import Loom.Script.Arrow
import Loom.Script.Class
import Loom.Script.Element

/-!
Expressions, from literals up to assignments.
-/

namespace Loom.Script.Expression

open Loom.Script.Parser Modifier

/-! ## Primary expressions -/

def rememberParentheses (id : NodeId) (offset : Nat) : Parser Unit :=
  modify fun s => { s with parenthesized := (id, offset) :: s.parenthesized }

variable (g : Grammar)

/-- An expression in parentheses. The parentheses leave no node. -/
def parenthesized : Parser NodeId := do
  let start ← here
  need "("
  let inside ← here
  let (found, comma) ← within ({ · with inOperator := true, decorator := false })
    (separated ")" (g.assignment true))
  if let some place := comma then return ← faultAt place
  let stop ← lastStop
  need ")"
  match found with
  | [] => faultAt start
  | es =>
    let id ← match es with
      | [e] => pure e
      | _ => nodeAt ⟨inside, stop⟩ (.sequenceExpression es)
    rememberParentheses id start
    return id

def spread : Parser NodeId := spanned do
  need "..."
  return .spreadElement (← g.assignment true)

def rememberComma (id : NodeId) (comma : Option Nat) : Parser Unit :=
  comma.forM fun place => modify
    fun s => { s with trailingCommas := (id, place) :: s.trailingCommas }

def array : Parser NodeId := do
  let start ← here
  need "["
  let (elements, comma) ← withIn <| separated "]" do
    if ← sees "," then return none
    else if ← sees "..." then some <$> spread g
    else some <$> g.assignment true
  need "]"
  let id ← node start (.arrayExpression elements)
  rememberComma id comma
  return id

def accessor (start : Nat) (modifiers : List Modifier) : Parser NodeId := do
  let isGetter ← seesWord "get"
  advance
  let (key, computed) ← propertyName g
  let (value, s) ← Function.method g .objectMethod false false
  if isGetter then Function.checkGetter s else Function.checkSetter s
  allow [] modifiers
  node start (.property key value (if isGetter then .get else .set) computed false false)

/-- A name alone, which stands for the variable of that name. An initializer makes it a part of a
pattern. -/
def shorthand (start : Nat) (key : NodeId) (name : String) : Parser NodeId := do
  let value ← nodeAt (← rangeOf key) (.identifier name)
  let init ← optionally (take "=") (withIn (g.assignment true))
  let id ← node start (.property key value .init false true false)
  init.forM fun e => modify fun s => { s with initializers := s.initializers ++ [(id, e)] }
  return id

def property (g : Grammar) : Parser NodeId := do
  if ← sees "..." then return ← spread g
  let start ← here
  let modifiers ← ofMember false false
  if (← Type.seesAccessor "get") || (← Type.seesAccessor "set") then return ← accessor g start modifiers
  let generator ← take "*"
  let current ← lexeme
  let (key, computed) ← propertyName g
  if generator || (← seesAny ["(", "<"]) then
    allow ["async"] modifiers
    let (value, _) ← Function.method g .objectMethod (contains modifiers "async") generator
    return ← node start (.property key value .init computed false true)
  allow [] modifiers
  if let .word name _ := current then
    if current.isBinding && !(← isOperatorWord name) && !(← sees ":") then
      return ← shorthand g start key name
  need ":"
  let value ← g.assignment true
  node start (.property key value .init computed false false)

def object : Parser NodeId := do
  let start ← here
  need openBrace
  let (properties, comma) ← withIn (separated closeBrace (property g))
  need closeBrace
  let id ← node start (.objectExpression properties)
  rememberComma id comma
  return id

/-- A part of a template without its marks, and whether it is the last one. Only a tagged template
may have wrong escapes. -/
def templateElement (tagged : Bool) : Parser (NodeId × Bool) := do
  match ← lexeme with
  | .template raw cooked last =>
    let range := (← get).current.range
    advance
    let inner : Range := ⟨range.start + 1, range.stop - (if last then 1 else 2)⟩
    if cooked.isNone && !tagged then complain inner.start
    return (← nodeAt inner (.templateElement raw cooked last), last)
  | _ =>
    missing
    return (← blankNode (.templateElement "" none true), true)

def template (tagged : Bool) : Parser NodeId := do
  let start ← here
  let (first, last) ← templateElement tagged
  let (quasis, expressions, _) ← iterate (fun (st : List NodeId × List NodeId × Bool) => do
    let (quasis, expressions, last) := st
    if last then return none
    let e ← withIn (substitution (expression g))
    let (quasi, last) ← templateElement tagged
    return some (quasi :: quasis, e :: expressions, last)) ([first], [], last)
  node start (.templateLiteral quasis.reverse expressions.reverse)

/-- A regular expression. Two of its flags exclude each other. -/
def regex : Parser NodeId := do
  let start ← here
  if ← faulted then return ← faultAt start
  modify fun s => s.reread s.ahead (Lexer.regex start s.ahead)
  if !(← get).lexerComplaints.isEmpty then return ← faultAt start
  match ← lexeme with
  | .regex pattern flags =>
    if flags.toList.contains 'u' && flags.toList.contains 'v' then complain start
    let raw ← source
    leaf (.literal (.regex pattern flags) raw)
  | _ => unexpected

def classExpression : Parser NodeId := do
  let start ← here
  let decorators ← Function.decorators g
  let modifiers ← if decorators.isEmpty then pure [] else ofMember false false
  if !(← seesWord "class") then return ← unexpected
  let id ← Class.classFrom g start .expression
  allow ["declare", "abstract"] modifiers
  return id

def primary : Parser NodeId := do
  match ← lexeme with
  | .string _ | .number _ | .bigint => literal
  | .template .. => template g false
  | .mark "(" => parenthesized g
  | .mark "[" => array g
  | .mark "\x7b" => object g
  | .mark "/" | .mark "/=" => regex
  | .mark "@" => classExpression g
  | .word "this" _ => wordLeaf .thisExpression
  | .word "null" _ | .word "true" _ | .word "false" _ => literal
  | .word "class" _ => classExpression g
  | _ =>
    if ← Function.starts then Function.function g (← here) .expression false
    else reference

/-! ## Members and calls -/

def argument : Parser NodeId := do
  if ← sees "..." then spread g else g.assignment true

def arguments : Parser (List NodeId) :=
  within ({ · with inOperator := true, decorator := false }) (enclosed "(" ")" (argument g))

def importCall (start : Nat) : Parser NodeId := do
  need "("
  if ← take ")" then return ← faultAt start
  let (source, options) ← withIn do
    let source ← g.assignment true
    let more ← take ","
    return (source, ← optionally (return more && !(← sees ")")) (g.assignment true))
  let _ ← take ","
  if !(← take ")") then return ← faultAt start
  node start (.importExpression source options)

def importHead : Parser NodeId := do
  let start ← here
  let object ← wordLeaf (.identifier "import")
  if ← take "." then
    if ← seesWord "meta" then node start (.metaProperty object (← wordLeaf (.identifier "meta")))
    else if ← seesAnyWord ["source", "defer"] then
      advance
      importCall g start
    else faultAt start
  else if ← sees "(" then importCall g start
  else unexpected

def superHead : Parser NodeId := do
  let start ← here
  let id ← wordLeaf .super
  if !(← seesAny [".", "[", "("]) then complain start
  return id

/-- The expression that type arguments were given to. Type arguments in parentheses stay. -/
def withoutTypeArguments (id : NodeId) : Parser NodeId := do
  match ← bareKind? id with
  | some (.typedExpression .instantiation inner) => return inner
  | _ => return id

/-- Whether an expression can start with the lexeme. Words that also mean something else are left
out. -/
def startsExpression : Lexeme → Bool
  | .string _ | .number _ | .bigint | .template .. | .privateName _ | .regex .. => true
  | .mark m =>
    ["(", "[", "\x7b", "/", "/=", "+", "-", "~", "!", "++", "--", "<", "@"].contains m
  | .word name _ =>
    !Lexeme.isKeyword name
      || ["this", "super", "null", "true", "false", "function", "class", "new", "delete", "typeof",
        "void", "import", "in", "await", "yield", "private"].contains name
  | _ => false

def binaryMarks : List String :=
  ["??", "||", "&&", "|", "^", "&", "==", "!=", "===", "!==", "<", ">", "<=", ">=", "<<", ">>",
    ">>>", "+", "-", "*", "/", "%", "**"]

/-- Whether an operator between two operands starts here. The word `in` is one where it is not an
operator. -/
def seesBinary : Parser Bool := do
  if ← seesWord "in" then return !(← context).inOperator
  return (← seesAny binaryMarks) || (← seesAnyWord ["instanceof", "as", "satisfies"])

/-- Type arguments after an expression. They are kept unless an expression or a comparison goes on
after them. -/
def typeArguments : Parser Unit := do
  Type.argumentsChecked g do
    joinAngles
    if ← sees ">=" then unexpected
  let l ← lexeme
  if l.isMark "(" || l.isTemplate then return
  if l.isAnyMark ["<", ">", "+", "-"] then return ← unexpected
  if (← onNewLine) || (← seesBinary) || !startsExpression l then return
  unexpected

def taggedTemplate (start : Nat) (e : NodeId) (chained : Bool) : Parser NodeId := do
  let tag ← withoutTypeArguments e
  if chained then complain (← here)
  node start (.taggedTemplateExpression tag (← template g true))

def computedMember (start : Nat) (e : NodeId) (optional : Bool) : Parser NodeId := do
  let key ← between "[" "]" (withIn (expression g))
  node start (.memberExpression e key true optional)

def namedMember (start : Nat) (e : NodeId) (optional : Bool) : Parser NodeId := do
  let key ← match ← lexeme with
    | .privateName name => leaf (.privateIdentifier name)
    | _ => propertyWord
  node start (.memberExpression e key false optional)

def optionalMember (start : Nat) (e : NodeId) : Parser (Option NodeId) := do
  let l ← nextLexeme
  if l.isMark "[" then
    advance
    some <$> computedMember g start e true
  else if l.isName || l.isPrivateName then
    advance
    some <$> namedMember start e true
  else return none

/-- Goes on with a member, a template or a type wrapper, if there is one. The flag tells whether an
optional mark was met. -/
def memberStep (start : Nat) (e : NodeId) (chained : Bool) :
    Parser (Option (NodeId × Bool)) := do
  match ← lexeme with
  | .mark "." =>
    advance
    return some (← namedMember start e false, chained)
  | .mark "[" =>
    if (← context).decorator then return none
    return some (← computedMember g start e false, chained)
  | .mark "?." => return (← optionalMember g start e).map (·, true)
  | .mark "!" =>
    if (← typescript) && !(← onNewLine) then
      advance
      return some (← node start (.typedExpression .nonNull e), chained)
    return none
  | .template .. => return some (← taggedTemplate g start e chained, chained)
  | .mark "<" | .mark "<<" =>
    if !(← typescript) then return none
    if (← attempt (typeArguments g)).isNone then return none
    return some (← node start (.typedExpression .instantiation e), chained)
  | _ => return none

/-- Members, templates and type wrappers, as many as there are. An optional one is none of them. -/
def members (start : Nat) (e : NodeId) : Parser NodeId :=
  iterate (fun (e : NodeId) => do
    if (← sees "?.") || (← faulted) then return none
    return (← memberStep g start e false).map (·.1)) e

def newHead : Parser NodeId := do
  let start ← here
  let word ← wordLeaf (.identifier "new")
  if ← take "." then
    if ← seesWord "target" then
      return ← node start (.metaProperty word (← wordLeaf (.identifier "target")))
    faultAt start
  let calleeStart ← here
  let callee ← members g calleeStart (← g.head)
  if ← sees "?." then return ← faultAt (← here)
  let constructor ← withoutTypeArguments callee
  let args ← if ← sees "(" then withIn (enclosed "(" ")" (argument g)) else pure []
  if let some (.importExpression ..) ← bareKind? constructor then complain calleeStart
  node start (.newExpression constructor args)

def head : Parser NodeId := do
  if ← seesWord "new" then newHead g
  else if ← seesWord "import" then importHead g
  else if ← seesWord "super" then superHead
  else primary g

def suffix (start : Nat) (e : NodeId) (chained : Bool) :
    Parser (Option (NodeId × Bool)) := do
  if ← faulted then return none
  if let some found ← memberStep g start e chained then return some found
  let place ← here
  if ← take "?." then
    let typed := (← typescript) && (← Type.seesArguments)
    if typed then Type.arguments g
    if (← lexeme).isTemplate then return some (← taggedTemplate g start e true, true)
    if !typed && !(← sees "(") then return ← faultAt place
    return some (← node start (.callExpression e (← arguments g) true), true)
  if ← sees "(" then
    let callee ← withoutTypeArguments e
    return some (← node start (.callExpression callee (← arguments g) false), chained)
  return none

def closeChain (start : Nat) (e : NodeId) : Parser NodeId := do
  match ← kindOf e with
  | .memberExpression .. | .callExpression .. | .typedExpression .nonNull _ =>
    node start (.chainExpression e)
  | .typedExpression .instantiation inner =>
    match ← kindOf inner with
    | .memberExpression .. | .callExpression .. | .typedExpression .nonNull _ =>
      let chain ← nodeAt (← rangeOf inner) (.chainExpression inner)
      become e (.typedExpression .instantiation chain)
      return e
    | _ => return e
  | _ => return e

def leftHandSide : Parser NodeId := do
  let start ← here
  let first ← head g
  let (e, chained) ← iterate (fun (st : NodeId × Bool) => suffix g start st.1 st.2) (first, false)
  if chained then closeChain start e else return e

/-! ## Operators -/

/-- Whether a lexeme goes on with the operand of `await` or `yield` where these are not
operators. -/
def followsOperatorWord (l : Lexed) : Bool :=
  !l.newline && (l.lexeme.isLiteral || l.lexeme.isName) &&
    !l.lexeme.isAnyWord ["in", "instanceof", "of"]

def seesAwait : Parser Bool := do
  if !(← seesWord "await") then return false
  if (← context).awaitOperator then return true
  nextIs followsOperatorWord

/-- The operand of `await` takes its own start, if it starts with `++` or `--`. -/
def awaitExpression (g : Grammar) (operandStart : Nat) : Parser NodeId := do
  let start ← here
  if !(← context).awaitOperator then complain start
  advance
  node start (.awaitExpression (← within ({ · with awaitOperator := true }) (g.unary operandStart)))

def updateMarks : List String := ["++", "--"]

/-- An expression with `++` or `--` on one side. Before an expression, they start at the offset. -/
def update (prefixStart : Nat) : Parser NodeId := do
  if let .mark m ← lexeme then
    if updateMarks.contains m then
      advance
      let argument ← g.unary prefixStart
      Pattern.simpleTarget argument
      return ← node prefixStart (.updateExpression m true argument)
  let start ← here
  let e ← leftHandSide g
  if let .mark m ← lexeme then
    if updateMarks.contains m && !(← onNewLine) then
      advance
      Pattern.simpleTarget e
      return ← node start (.updateExpression m false e)
  return e

def typeAssertion : Parser NodeId := spanned do
  need "<"
  let _ ← g.type
  need ">"
  return .typedExpression .assertion (← g.unary (← here))

def markup : Parser NodeId := do
  let start ← here
  Element.element g false
  complain start
  blankNode (.literal .null "")

def unaryMarks : List String := ["+", "-", "~", "!"]

def unaryWords : List String := ["delete", "typeof", "void"]

/-- An expression with its leading operators. A leading `++` or `--` starts at the offset. -/
def unary (g : Grammar) (updateStart : Nat) : Parser NodeId := do
  let start ← here
  let l ← lexeme
  let operator : Option String := match l with
    | .mark m => if unaryMarks.contains m then some m else none
    | .word name _ => if unaryWords.contains name then some name else none
    | _ => none
  match operator with
  | some op =>
    advance
    node start (.unaryExpression op (← g.unary (← here)))
  | none =>
    if ← sees "<" then
      if ← typescript then typeAssertion g else markup g
    else if ← seesAwait then awaitExpression g updateStart
    else update g updateStart

def strength? : Lexeme → Option Nat
  | .mark m =>
    match m with
    | "??" => some 1
    | "||" => some 2
    | "&&" => some 3
    | "|" => some 4
    | "^" => some 5
    | "&" => some 6
    | "==" | "!=" | "===" | "!==" => some 7
    | "<" | ">" | "<=" | ">=" => some 8
    | "<<" | ">>" | ">>>" => some 9
    | "+" | "-" => some 10
    | "*" | "/" | "%" => some 11
    | "**" => some 12
    | _ => none
  | .word name _ =>
    if ["in", "instanceof", "as", "satisfies"].contains name then some 8 else none
  | _ => none

def operatorText : Lexeme → String
  | .mark m => m
  | .word name _ => name
  | _ => ""

def logicalOperator? (id : NodeId) : Parser (Option String) := do
  match ← bareKind? id with
  | some (.operatorExpression .logical op _ _) => return some op
  | _ => return none

def isBareUnary (id : NodeId) : Parser Bool := do
  match ← bareKind? id with
  | some (.unaryExpression ..) | some (.awaitExpression _) => return true
  | _ => return false

structure Operand where
  id : NodeId
  opened : Bool

/-- Whether the operands of `??` are mixed with another logical operator. The left one is looked at
only if the right one has no such operator, and one that starts with a parenthesis counts as one in
parentheses. -/
def mixesCoalescing (left right : Operand) : Parser Bool := do
  match ← logicalOperator? right.id with
  | some op => return !right.opened && op != "??"
  | none => return !left.opened && (← logicalOperator? left.id).any (· != "??")

def operation (start : Nat) (op : String) (left right : Operand) : Parser NodeId := do
  if ["??", "||", "&&"].contains op then
    if op == "??" && (← mixesCoalescing left right) then complain start
    node start (.operatorExpression .logical op left.id right.id)
  else
    if op == "**" && (← isBareUnary left.id) then complainOf left.id
    node start (.operatorExpression .binary op left.id right.id)

def operatorStep (start weakest : Nat) (opened : Bool) (left : NodeId) :
    Parser (Option NodeId) := do
  if ← faulted then return none
  joinAngles
  let l ← lexeme
  match strength? l with
  | none => return none
  | some s =>
    let stronger := if s == 12 then weakest ≤ s else weakest < s
    if !stronger || (l.isWord "in" && !(← context).inOperator) then return none
    if l.isAnyWord ["as", "satisfies"] then
      if ← onNewLine then return none
      let form := if l.isWord "as" then TypedExpression.asType else .satisfies
      advance
      let _ ← g.type
      if !(← typescript) then complain start
      return some (← node start (.typedExpression form left))
    advance
    let rightOpened ← sees "("
    let right ← g.operand s
    return some (← operation start (operatorText l) ⟨left, opened⟩ ⟨right, rightOpened⟩)

/-- A test for a private member. It is no operand of an operator as strong as its own. -/
def privateTest (weakest : Nat) (name : String) : Parser NodeId := do
  let start ← here
  let left ← leaf (.privateIdentifier name)
  if weakest ≥ 8 then complain start
  needWord "in"
  node start (.operatorExpression .binary "in" left (← g.operand 8))

def operand (weakest : Nat) : Parser NodeId := do
  let start ← here
  let opened ← sees "("
  let first ← match ← lexeme, (← context).inOperator with
    | .privateName name, true => privateTest g weakest name
    | _, _ => unary g start
  iterate (operatorStep g start weakest opened) first

/-! ## Assignments -/

def assignmentMarks : List String :=
  ["=", "+=", "-=", "*=", "/=", "%=", "**=", "<<=", ">>=", ">>>=", "&=", "|=", "^=", "&&=", "||=",
    "??="]

def seesYield : Parser Bool := do
  if !(← seesWord "yield") then return false
  if (← context).yieldOperator then return true
  nextIs followsOperatorWord

def yieldExpression (g : Grammar) : Parser NodeId := do
  let start ← here
  if !(← context).yieldOperator then complain start
  advance
  if ← onNewLine then return ← node start (.yieldExpression none false)
  let delegate ← take "*"
  let ended := (← seesAny [";", "]", closeBrace, ")", ":", ","]) || (← atStop)
  let argument ← optionally (return delegate || !ended) (g.assignment true)
  node start (.yieldExpression argument delegate)

def conditional (start : Nat) (test : NodeId) (resultTyped : Bool) : Parser NodeId := do
  if !(← take "?") then return test
  let consequent ← withIn (g.assignment false)
  need ":"
  node start (.conditionalExpression test consequent (← g.assignment resultTyped))

def assignmentRest (start : Nat) (left : NodeId) (op : String) (resultTyped : Bool) :
    Parser NodeId := do
  Pattern.assignTo left
  advance
  node start (.operatorExpression .assignment op left (← g.assignment resultTyped))

def assignment (resultTyped : Bool) : Parser NodeId := do
  if ← seesYield then return ← yieldExpression g
  if let some e ← Arrow.parenthesized g resultTyped then return e
  let start ← here
  if ← Arrow.startsAsyncName then
    advance
    return ← Arrow.ofName g start (← operand g 0) true resultTyped
  let left ← operand g 0
  let l ← lexeme
  if let some (.identifier _) ← bareKind? left then
    if l.isMark "=>" then return ← Arrow.ofName g start left false resultTyped
  if l.isAnyMark assignmentMarks then
    return ← assignmentRest g start left (operatorText l) resultTyped
  conditional g start left resultTyped

end Loom.Script.Expression
