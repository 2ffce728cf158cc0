import Loom.Host.Error
import Loom.Script.Module

/-!
Whole scripts: the choice among statements, the tie of all rules, and the parse of a text.
-/

namespace Loom.Script

open Loom.Script.Parser

namespace Statement

def decorated (g : Grammar) (single : Bool) : Parser NodeId := do
  let start ← here
  let decorators ← Function.decorators g
  if ← seesWord "export" then return ← Module.exportDeclaration g decorators
  let modifiers ← Modifier.ofMember false false
  if ← seesWord "class" then Declaration.classStatement g start single modifiers
  else unexpected

def statement (g : Grammar) (single : Bool) : Parser NodeId := do
  match ← lexeme with
  | .mark "\x7b" => block g
  | .mark ";" => emptyStatement
  | .mark "@" => decorated g single
  | .word "let" true => expressionOrLabel g
  | .word name _ =>
    match name with
    | "if" => ifStatement g
    | "do" => doStatement g
    | "while" => whileStatement g
    | "for" => forStatement g
    | "continue" => jump .continueStatement
    | "break" => jump .breakStatement
    | "return" => returnStatement g
    | "with" => withStatement g
    | "switch" => switchStatement g
    | "throw" => throwStatement g
    | "try" => tryStatement g
    | "debugger" => debuggerStatement
    | "class" => Declaration.classStatement g (← here) single []
    | "const" => Declaration.constStatement g (← here) single
    | "var" => variableDeclaration g (← here) single
    | "export" => Module.exportDeclaration g []
    | "import" =>
      if ← Module.importIsExpression then expressionOrLabel g else Module.importDeclaration
    | "let" => letStatement g single
    | "using" | "await" =>
      if ← startsUsing then variableDeclaration g (← here) single else expressionOrLabel g
    | _ =>
      if ← Function.starts then functionStatement g single
      else if ← Declaration.starts then Declaration.declaration g (← here)
      else expressionOrLabel g
  | _ => expressionOrLabel g

end Statement

def Grammar.ofDepth : Nat → Grammar
  | 0 => .exhausted
  | depth + 1 =>
    -- each rule makes the next level when it runs, so that only the levels in use exist
    { statement := fun single s => Statement.statement (ofDepth depth) single s
      assignment := fun resultTyped s => Expression.assignment (ofDepth depth) resultTyped s
      operand := fun weakest s => Expression.operand (ofDepth depth) weakest s
      unary := fun start s => Expression.unary (ofDepth depth) start s
      head := fun s => Expression.head (ofDepth depth) s
      leftHandSide := fun s => Expression.leftHandSide (ofDepth depth) s
      pattern := fun s => Pattern.pattern (ofDepth depth) s
      type := fun s => Type.type (ofDepth depth) s
      parameters := fun owner s => Function.parameters (ofDepth depth) owner s
      element := fun inside s => Element.element (ofDepth depth) inside s }

/-- A text cannot nest deeper than this: between two rules that use no character there are at most a
few. -/
def depthOf (text : Text) : Nat := 4 * text.length + 16

def body (g : Grammar) : Parser (List NodeId) := manyUntil (return false) (g.statement false)

def start (coords : Coordinates) (options : HostOptions) (arena : Arena) : State :=
  let (offset, rest) := Lexer.skipInterpreterLine coords.text
  let awaitOperator := options.sourceType == .module
  let blank : State :=
    { typescript := options.typescript, sourceType := options.sourceType, coords, arena
      current := default, lastStop := offset, comments := [], lexerComplaints := [],
      complaints := [], fault := none
      context := ⟨true, false, awaitOperator, false, false, false, true⟩
      parenthesized := [], initializers := [], trailingCommas := [], notArrows := []
      defaultExports := [] }
  blank.readAt offset true rest

/-- What a parse is blamed for: its complaints and its fault, then initializers outside of patterns,
then names exported twice. -/
def blame? (s : State) (statements : List NodeId) : Option Nat :=
  let exported := statements.flatMap (Module.exportedNames s.arena)
  let repeated :=
    if s.typescript then none
    else (Module.repeatedName? [] exported).orElse fun _ => Module.repeatedDefault? s statements
  let uncovered := s.initializers.map fun i => (s.arena.range i.1).start
  (s.report? (s.lexerComplaints ++ s.complaints ++ s.fault.toList ++ uncovered)).orElse
    fun _ => repeated

structure Parsed where
  arena : Arena
  program : NodeId
  comments : List Remark

def parse (coords : Coordinates) (options : HostOptions) (arena : Arena) :
    Except HostError Parsed :=
  let g := Grammar.ofDepth (depthOf coords.text)
  let (statements, s) := (body g).run (start coords options arena)
  match blame? s statements with
  | some offset => .error ⟨.unexpectedToken, offset⟩
  | none =>
    let (program, arena) := s.arena.allocAt (.program options.sourceType statements)
      ⟨0, Text.byteSize coords.text⟩ coords
    .ok ⟨arena, program, s.comments⟩

end Loom.Script
