import Loom.Script.Program

/-!
Static evaluation of a configuration module.

Only literal data is read: the default export, which may be wrapped in a call or named by a variable
of the module. Everything else is unknown, and what is unknown is left out.
-/

namespace Loom

/-- What a configuration module says. -/
structure Config where
  runes : Option Bool
  extensions : List String
deriving DecidableEq, Repr, Inhabited

namespace Config

/-- A value that is known without running the module. -/
inductive Value where
  | null
  | boolean (b : Bool)
  | number (n : Double)
  | string (s : String)
  | array (items : List Value)
  | object (members : List (String × Value))
deriving Inhabited

abbrev Bindings := List (String × Value)

/-- The first value of a name. -/
def Value.member? (name : String) : Value → Option Value
  | .object members => members.lookup name
  | _ => none

variable (arena : Arena)

/-- The name of a member that is not in brackets. -/
def keyText (key : NodeId) : Option String :=
  match arena.kind key with
  | .identifier name => some name
  | .literal (.string s) _ => some s
  | _ => none

/-- The members that a property or a spread adds; later ones come first. -/
def extend (evaluate : NodeId → Option Value) (members : List (String × Value))
    (p : NodeId) : List (String × Value) :=
  match arena.kind p with
  | .property key value _ false _ _ =>
    match keyText arena key, evaluate value with
    | some name, some v => (name, v) :: members
    | _, _ => members
  | .spreadElement argument =>
    match evaluate argument with
    | some (.object inner) => inner ++ members
    | _ => members
  | _ => members

/-- The value of an expression, down to the given depth. -/
def evaluateWithin (arena : Arena) (bindings : Bindings) : Nat → NodeId → Option Value
  | 0, _ => none
  | depth + 1, id =>
    let inner := evaluateWithin arena bindings depth
    match arena.kind id with
    | .literal (.string s) _ => some (.string s)
    | .literal (.number n) _ => if n.isFinite then some (.number n) else none
    | .literal (.boolean b) _ => some (.boolean b)
    | .literal .null _ => some .null
    | .templateLiteral (quasi :: _) [] =>
      match arena.kind quasi with
      | .templateElement _ (some cooked) _ => some (.string cooked)
      | _ => none
    | .identifier name => bindings.lookup name
    | .typedExpression .asType e | .typedExpression .satisfies e => inner e
    | .callExpression _ (argument :: _) _ => inner argument
    | .arrayExpression elements =>
      let items := elements.mapM fun (element : Option NodeId) => do
        let e ← element
        match arena.kind e with
        | .spreadElement _ => none
        | _ => some ((inner e).getD .null)
      items.map .array
    | .objectExpression properties => some (.object (properties.foldl (extend arena inner) []))
    | _ => none

def evaluateNode (bindings : Bindings) (id : NodeId) : Option Value :=
  evaluateWithin arena bindings arena.size id

/-- Adds the variables of a declaration whose values are known. -/
def bindVariables (bindings : Bindings) (declarations : List NodeId) : Bindings :=
  declarations.foldl (fun bs d => match arena.kind d with
    | .variableDeclarator id (some init) =>
      match arena.identifierName? id, evaluateNode arena bs init with
      | some name, some v => (name, v) :: bs
      | _, _ => bs
    | _ => bs) bindings

/-- Reads one statement: variables are remembered, and the last default export counts. -/
def readStatement (st : Bindings × Option Value) (id : NodeId) :
    Bindings × Option Value :=
  match arena.kind id with
  | .variableDeclaration _ declarations => (bindVariables arena st.1 declarations, st.2)
  | .exportDefaultDeclaration e => (st.1, evaluateNode arena st.1 e)
  | _ => st

def ofValue (v : Value) : Config where
  runes := match (v.member? "compilerOptions").bind (·.member? "runes") with
    | some (.boolean b) => some b
    | _ => none
  extensions := match v.member? "extensions" with
    | some (.array items) => items.filterMap fun i => match i with
      | .string s => some s
      | _ => none
    | _ => []

/-- Evaluates a configuration module, which may use TypeScript. -/
def evaluate (source : Text) : Except HostError Config := do
  let coords := Coordinates.ofText source
  let parsed ← Script.parse coords ⟨.module, 2022, true⟩ .empty
  let statements := match parsed.arena.kind parsed.program with
    | .program _ body => body
    | _ => []
  let (_, exported) := statements.foldl (readStatement parsed.arena) ([], none)
  return (exported.map ofValue).getD ⟨none, []⟩

end Config

end Loom
