import Loom.Script.Modifier

/-!
The types of TypeScript. They leave no nodes: the rules only find where a type ends, and what form
it has where another rule asks for that.
-/

namespace Loom.Script.Type

open Loom.Script.Parser Modifier

def skipName : Parser Unit := do
  if (← lexeme).isName then pass else unexpected

def skipBinding : Parser Unit := do
  if (← bindableName).isSome then pass

def skipMembers : Parser Unit := discard (eachAfter "." skipName)

def qualifiedName : Parser Unit := do
  skipName
  skipMembers

def seesArguments : Parser Bool := seesAny ["<", "<<"]

variable (g : Grammar)

/-- Types in angle brackets, at least one. A check is made before the closing bracket. -/
def argumentsChecked (check : Parser Unit) : Parser Unit := do
  let start ← here
  splitAngle
  need "<"
  let (found, _) ← separated ">" g.type
  check
  need ">"
  if found.isEmpty then complain start

def arguments : Parser Unit := argumentsChecked g (pure ())

/-- Type arguments on the same line, if there are any. After a type every angle bracket opens
them. -/
def optionalArguments : Parser Unit := do
  if (← seesAny ["<", "<<", "<=", "<<="]) && !(← onNewLine) then arguments g

def parameter : Parser Unit := do
  allow ["in", "out", "const"] (← ofMember true false)
  skipBinding
  if ← takeWord "extends" then
    let _ ← g.type
  if ← take "=" then
    let _ ← g.type

def optionalParameters : Parser (Option Nat) := do
  if !((← typescript) && (← sees "<")) then return none
  let start ← here
  let found ← enclosed "<" ">" (parameter g)
  if found.isEmpty then complain start
  return some start

def result : Parser Unit := do
  if (← lexeme).isName && (← nextIs fun l => l.lexeme.isWord "is" && !l.newline) then
    pass
    advance
  let _ ← g.type

def optionalAnnotation : Parser Unit := do
  if ← typescript then
    if ← take ":" then
      let _ ← g.type

def annotation : Parser Unit := do
  if (← typescript) && (← sees ":") then optionalAnnotation g else unexpected

def optionalResult : Parser (Option Nat) := do
  if !((← typescript) && (← sees ":")) then return none
  let start ← here
  advance
  result g
  return some start

/-! ## Where types start -/

def typeWords : List String := ["void", "null", "this", "typeof", "new", "true", "false", "import"]

/-- Whether a type can start with the lexeme, which is asked in another way in the place of a
parameter. -/
def startsWith (ofParameter : Bool) : Lexeme → Bool
  | .word name _ =>
    (!Lexeme.reserved.contains name && name != "await") || typeWords.contains name
      || (name == "function" && !ofParameter)
  | .string _ | .number _ | .bigint | .template .. => true
  | .mark m => [openBrace, "[", "<", "|", "&", "*", "?", "..."].contains m
  | _ => false

def startsParameter (l : Lexeme) : Bool :=
  l.isBinding || l.isPrivateName || l.isAnyWord words || l.isMark "@" || startsWith true l

def seesNegative : Parser Bool := do
  if !(← sees "-") then return false
  match ← nextLexeme with
  | .number _ | .bigint => return true
  | _ => return false

/-- Whether a type starts here. After parentheses it may also be a parameter that starts, or
nothing. -/
def starts : Parser Bool :=
  lookahead do
    let opened ← sees "("
    let _ ← eachAfter "(" (pure ())
    let l ← lexeme
    return startsWith false l || (← seesNegative) || (opened && (l.isMark ")" || startsParameter l))

/-! ## Members -/

/-- Parameters and result of a signature. With them, the place of the result. -/
def signature : Parser (Option Nat) := do
  let _ ← optionalParameters g
  let _ ← g.parameters .function
  optionalResult g

/-- Complains about a type for `this` where an object is made, which has none yet. -/
def refuseThis (parameters : Parameters) : Parser Unit := do
  parameters.this.forM complain

def constructSignature : Parser Unit := do
  let _ ← optionalParameters g
  refuseThis (← g.parameters .function)
  let _ ← optionalResult g

def startsIndexSignature : Parser Bool := do
  if !(← sees "[") then return false
  lookahead do
    advance
    if ← seesAny ["...", "["] then return true
    let l ← lexeme
    if l.isAnyWord words then
      pass
      if (← lexeme).isBinding then return true
    else if l.isBinding then pass
    else return false
    if ← seesAny [":", ","] then return true
    if !(← take "?") then return false
    seesAny [":", ",", "]"]

def endMember : Parser Unit := do
  if !(← take ",") then
    let _ ← take ";"

def indexSignature (modifiers : List Modifier) : Parser Unit := do
  allow ["readonly", "static"] modifiers
  need "["
  skipName
  annotation g
  need "]"
  annotation g
  endMember

def seesAccessor (word : String) : Parser Bool := do
  if !(← seesWord word) then return false
  let l ← nextLexeme
  return l.isPropertyName || l.isPrivateName || l.isMark "["

/-- A getter or a setter from its word on. It has no type parameters, and a setter no result. -/
def accessorSignature (modifiers : List Modifier) : Parser Unit := do
  let isSetter ← seesWord "set"
  advance
  let _ ← propertyName g
  let _ ← g.parameters .function
  let result ← optionalResult g
  if isSetter then result.forM complain
  endMember
  allow [] modifiers

def member : Parser Unit := do
  if (← seesWord "new") && (← nextLexeme).isAnyMark ["(", "<"] then
    advance
    constructSignature g
    endMember
  else if ← seesAny ["(", "<"] then
    let _ ← signature g
    endMember
  else
    let modifiers ← ofMember true false
    if (← seesAccessor "get") || (← seesAccessor "set") then accessorSignature g modifiers
    else if ← startsIndexSignature then indexSignature g modifiers
    else
      let _ ← propertyName g
      let _ ← take "?"
      if ← seesAny ["(", "<"] then
        allow [] modifiers
        let _ ← signature g
      else
        allow ["readonly"] modifiers
        optionalAnnotation g
      endMember

def members : Parser Unit :=
  between openBrace closeBrace (discard (manyUntil (sees closeBrace) (member g)))

/-! ## Types in brackets -/

def startsMapped : Parser Bool :=
  lookahead do
    need openBrace
    if ← seesAny ["+", "-"] then
      advance
      return ← seesWord "readonly"
    let _ ← takeWord "readonly"
    need "["
    skipName
    seesWord "in"

def takeSign : Parser Bool := do
  if ← seesAny ["+", "-"] then advance; return true else return false

def mapped : Parser Unit := do
  need openBrace
  let _ ← takeSign
  let _ ← takeWord "readonly"
  need "["
  skipBinding
  needWord "in"
  let _ ← g.type
  if ← takeWord "as" then
    let _ ← g.type
  need "]"
  if ← takeSign then need "?" else
    let _ ← take "?"
  if ← take ":" then
    let _ ← g.type
  let _ ← take ";"
  need closeBrace

structure Element where
  place : Nat
  isSpread : Bool
  isOptional : Bool

def unnamedElement : Parser (Element × TypeForm) := do
  let start ← here
  let isSpread ← take "..."
  let form ← g.type
  return (⟨start, isSpread, form = .optional⟩, form)

/-- An element of a tuple. One with a name has its marks at the name and not at the type, and only
one of them. -/
def element : Parser Element := do
  let start ← here
  let named ← lookahead do
    let _ ← take "..."
    skipName
    let _ ← take "?"
    sees ":"
  if named then
    let isSpread ← take "..."
    skipName
    let isOptional ← take "?"
    need ":"
    let (inner, form) ← unnamedElement g
    if isSpread && isOptional then complain start
    if inner.isSpread || form = .optional || form = .nullable then complain inner.place
    return ⟨start, isSpread, isOptional⟩
  else return (← unnamedElement g).1

/-- Complains about the elements that have to be there although one before them does not. -/
def checkElements (elements : List Element) : Parser Unit := do
  for e in elements.dropWhile (!·.isOptional) do
    if !e.isOptional && !e.isSpread then complain e.place

def tuple : Parser Unit := do
  checkElements (← enclosed "[" "]" (element g))

def template (g : Grammar) : Parser Unit := do
  iterate (fun _ => do
    match ← lexeme with
    | .template _ _ true => advance; return none
    | .template _ _ false =>
      advance
      let _ ← substitution g.type
      return some ()
    | _ => missing; return none) ()

/-! ## Types without operators -/

def importType : Parser Unit := do
  needWord "import"
  need "("
  if (← lexeme).isString then advance else unexpected
  if ← take "," then
    if ← sees openBrace then
      let _ ← g.head
      let _ ← take ","
    else if !(← sees ")") then missing
  need ")"
  skipMembers
  optionalArguments g

def query : Parser Unit := do
  needWord "typeof"
  if ← seesWord "import" then importType g
  else
    qualifiedName
    optionalArguments g

def reference : Parser Unit := do
  qualifiedName
  optionalArguments g

def assertion : Parser Unit := do
  advance
  pass
  if ← takeWord "is" then
    let _ ← g.type

def builtin : List String :=
  ["any", "unknown", "string", "object", "number", "bigint", "symbol", "boolean", "undefined",
    "never"]

def primary : Parser TypeForm := do
  match ← lexeme with
  | .string _ | .number _ | .bigint => advance; return .other
  | .template .. => template g; return .other
  | .mark "-" =>
    if !(← seesNegative) then return ← unexpected
    advance
    advance
    return .other
  | .mark "(" =>
    let _ ← between "(" ")" g.type
    return .other
  | .mark "[" => tuple g; return .tuple
  | .mark "\x7b" =>
    if ← startsMapped then mapped g else members g
    return .other
  | .word "null" _ | .word "true" _ | .word "false" _ | .word "void" _ => advance; return .other
  | .word "typeof" _ => query g; return .other
  | .word "import" _ => importType g; return .other
  | .word "this" _ =>
    advance
    if (← seesWord "is") && !(← onNewLine) then
      advance
      let _ ← g.type
    return .other
  | .word "asserts" _ =>
    if ← nextIs fun l => l.lexeme.isName && !l.newline then assertion g else reference g
    return .other
  | .word name _ =>
    if builtin.contains name && !(← nextLexeme).isMark "." then advance else reference g
    return .other
  | _ => unexpected

/-- A type with the marks before it that say whether it can be null. A question mark alone is an
unknown type. -/
def marked : Parser TypeForm := do
  let bangs ← eachAfter "!" (pure ())
  if ← take "?" then
    if !(← seesAny [",", closeBrace, ")", ">", "=", "|"]) then
      let _ ← g.type
    return .nullable
  let form ← primary g
  return if bangs.isEmpty then form else .other

/-- A type with the marks and brackets after it. A question mark belongs to the type unless another
type follows. -/
def postfixed : Parser TypeForm := do
  let first ← marked g
  iterate (fun (_ : TypeForm) => do
    if ← onNewLine then return none
    if ← take "!" then return some .other
    if ← sees "?" then
      let ahead ← lookahead do
        advance
        starts
      if ahead then return none
      advance
      return some .optional
    if ← take "[" then
      if ← starts then
        let _ ← g.type
        need "]"
        return some .other
      need "]"
      return some .array
    return none) first

/-! ## Operators -/

/-- A name for an inferred type. Its constraint is left alone where a conditional type may start
instead. -/
def inferred : Parser Unit := do
  advance
  skipBinding
  if ← seesWord "extends" then
    let outer ← context
    let _ ← attempt do
      advance
      let _ ← within ({ · with conditionalType := false }) g.type
      if outer.conditionalType && (← sees "?") then (unexpected : Parser Unit)

def checkReadonly (places : List (Bool × Nat)) (form : TypeForm) : Parser Unit := do
  if let (isReadonly, place) :: outer := places then
    if isReadonly && form != .array && form != .tuple then complain place
    for (isReadonly, place) in outer do
      if isReadonly then complain place

def operator : Parser TypeForm := do
  let words ← iterate (fun (found : List (Bool × Nat)) => do
    if ← seesAnyWord ["keyof", "unique", "readonly"] then
      let word := (← seesWord "readonly", ← here)
      advance
      return some (word :: found)
    else return none) []
  let form ← if ← seesWord "infer" then inferred g; pure TypeForm.other
    else within ({ · with conditionalType := true }) (postfixed g)
  checkReadonly words form
  return if words.isEmpty then form else .other

/-- Types joined by a mark, which may also stand before the first. -/
def joined (mark : String) (item : Parser TypeForm) : Parser TypeForm := do
  let leading ← take mark
  let first ← item
  let alone := !leading && !(← sees mark)
  let _ ← eachAfter mark item
  return if alone then first else .other

def startsParameters : Parser Bool :=
  lookahead do
    need "("
    if ← seesAny [")", "..."] then return true
    let _ ← ofMember false false
    if (← lexeme).isBinding || (← seesWord "this") then pass
    else if (← sees "[") || (← sees openBrace) then
      let before := (← get).complaints.length
      let _ ← g.pattern
      if (← get).complaints.length != before || (← atEnd) then return false
    else return false
    if ← seesAny [":", ",", "?", "="] then return true
    if ← take ")" then return ← sees "=>"
    return false

def startsFunction : Parser Bool := do
  if (← sees "<") || (← seesWord "new") then return true
  if ← seesWord "abstract" then return (← nextLexeme).isWord "new"
  if ← sees "(" then startsParameters g else return false

/-- A function type. Whatever stands between parameters and result is taken for the arrow. -/
def function (g : Grammar) : Parser Unit := do
  let _ ← takeWord "abstract"
  let constructs ← takeWord "new"
  let _ ← optionalParameters g
  let parameters ← g.parameters .function
  advance
  result g
  if constructs then refuseThis parameters

def type (g : Grammar) : Parser TypeForm := do
  if ← startsFunction g then
    function g
    return .other
  let form ← joined "|" (joined "&" (operator g))
  if !((← context).conditionalType && !(← onNewLine) && (← seesWord "extends")) then return form
  advance
  let _ ← within ({ · with conditionalType := false }) g.type
  need "?"
  let _ ← within ({ · with conditionalType := true }) g.type
  need ":"
  let _ ← within ({ · with conditionalType := true }) g.type
  return .other

end Loom.Script.Type
