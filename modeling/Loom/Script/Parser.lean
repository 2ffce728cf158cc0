import Loom.Options
import Loom.Script.Lexer
import Loom.Tree.Arena

/-!
The parser of scripts: its state, its faults, and the steps that all grammar rules are made of.

A complaint is kept while the parse goes on. A fault ends the reading: after the current lexeme
there is nothing any more. The rules that are open run to their end over this rest, with blanks for
what they do not find, so no rule has to ask whether there was a fault. Only the first place is
reported in the end: a complaint of the lexer comes before all others, then the complaints up to the
fault, then the fault. Later faults and complaints do not count.

Where nothing is left that can be read, a rule that needs an operand takes the last complaint of the
lexer with it: this is the fault then.
-/

namespace Loom.Script

structure Context where
  /-- The word `in` is an operator. -/
  inOperator : Bool
  yieldOperator : Bool
  awaitOperator : Bool
  returnable : Bool
  /-- Declarations describe what exists elsewhere. -/
  ambient : Bool
  /-- A member in brackets does not continue an expression. -/
  decorator : Bool
  /-- A type can be conditional. -/
  conditionalType : Bool
deriving Inhabited

structure State where
  typescript : Bool
  sourceType : SourceType
  coords : Coordinates
  arena : Arena
  current : Lexed
  lastStop : Nat
  comments : List Remark
  lexerComplaints : List Nat
  complaints : List Nat
  fault : Option Nat
  context : Context
  /-- The expressions written in parentheses, with the places of these, the outermost first. -/
  parenthesized : List (NodeId × Nat)
  /-- Shorthand properties with an initializer, which only a pattern may have. -/
  initializers : List (NodeId × NodeId)
  trailingCommas : List (NodeId × Nat)
  notArrows : List Nat
  defaultExports : List (NodeId × Nat)
deriving Inhabited

abbrev Parser := StateM State

namespace State

variable (s : State)

def readAt (offset : Nat) (newline : Bool) (rest : Text) : State :=
  let (lexed, comments, faults) := Lexer.next (s.sourceType == .script) offset newline rest
  { s with
    current := lexed
    comments := s.comments ++ comments
    lexerComplaints := s.lexerComplaints ++ faults }

def advance : State :=
  { s.readAt s.current.range.stop false s.current.rest with lastStop := s.current.range.stop }

/-- The place of the first comment, if it says that the text is in Flow, another dialect. -/
def otherDialect? : Option Nat :=
  if s.typescript then none
  else s.comments.head?.bind fun c =>
    if Text.contains (Text.slice s.coords.text c.range) "@flow".toList then some c.range.start
      else none

/-- The place to report of those that the parse complains about, in their order. A text in another
dialect is only told that it is. -/
def report? (offsets : List Nat) : Option Nat :=
  offsets.head?.map (s.otherDialect?.getD ·)

/-- Ends the reading with a fault at the offset, unless it has ended. -/
def endAt (offset : Nat) : State :=
  match s.fault with
  | some _ => s
  | none => { s with fault := some offset, current := { s.current with rest := [] } }

/-- Takes the text at the current place as the given reading instead. -/
def reread (cs : Text) (r : Reading) : State :=
  let start := s.current.range.start
  { s with
    current := Lexer.place start s.current.newline cs r
    lexerComplaints := s.lexerComplaints ++ r.faults }

def ahead : Text := s.current.text

end State

namespace Parser

variable {α σ : Type}

def lexeme : Parser Lexeme := return (← get).current.lexeme

def here : Parser Nat := return (← get).current.range.start

def lastStop : Parser Nat := return (← get).lastStop

def onNewLine : Parser Bool := return (← get).current.newline

def typescript : Parser Bool := return (← get).typescript

def context : Parser Context := return (← get).context

def faulted : Parser Bool := return (← get).fault.isSome

/-- Keeps a complaint about the offset. After a fault it does not count. -/
def complain (offset : Nat) : Parser Unit :=
  modify fun s => if s.fault.isSome then s else { s with complaints := s.complaints ++ [offset] }

/-- Moves past a lexeme whose spelling does not matter. -/
def pass : Parser Unit := modify State.advance

/-- Moves past the current lexeme. A word that means something here has no escapes. -/
def advance : Parser Unit := do
  if (← lexeme).isEscapedKeyword then complain (← here)
  pass

def nodeAt (range : Range) (k : Kind) : Parser NodeId := do
  let s ← get
  let (id, arena) := s.arena.allocAt k range s.coords
  set { s with arena := arena }
  return id

/-- Adds a node from the offset up to the end of the last lexeme. -/
def node (start : Nat) (k : Kind) : Parser NodeId := do nodeAt ⟨start, ← lastStop⟩ k

def spanned (p : Parser Kind) : Parser NodeId := do
  let start ← here
  node start (← p)

def blankNode (k : Kind) : Parser NodeId := do
  let place ← here
  nodeAt ⟨place, place⟩ k

/-- What a rule gives where it finds nothing. -/
class Blank (α : Type) where
  blank : Parser α

instance : Blank Unit := ⟨return ()⟩

instance : Blank NodeId := ⟨blankNode (.literal .null "")⟩

instance : Blank (Option α) := ⟨return none⟩

def faultAt [Blank α] (offset : Nat) : Parser α := do
  modify (·.endAt offset)
  Blank.blank

/-- Ends the reading at the current lexeme, which is not the one that is needed, and takes it for
that one. -/
def missing : Parser Unit := do
  modify fun s => s.endAt s.current.range.start
  pass

/-- Ends the reading at a lexeme that no rule can use. If there is none, the lexer knows the
reason. -/
def unexpected [Blank α] : Parser α := do
  let s ← get
  match s.current.lexeme, s.lexerComplaints.getLast? with
  | .stop, some last | .unreadable, some last =>
    set { s with lexerComplaints := s.lexerComplaints.dropLast }
    faultAt last
  | _, _ => faultAt s.current.range.start

def sees (text : String) : Parser Bool := return (← lexeme).isMark text

def seesAny (texts : List String) : Parser Bool := return (← lexeme).isAnyMark texts

def seesWord (name : String) : Parser Bool := return (← lexeme).isWord name

def seesAnyWord (names : List String) : Parser Bool := return (← lexeme).isAnyWord names

def take (text : String) : Parser Bool := do
  if ← sees text then advance; return true else return false

def takeWord (name : String) : Parser Bool := do
  if ← seesWord name then advance; return true else return false

def need (text : String) : Parser Unit := do
  if !(← take text) then missing

def needWord (name : String) : Parser Unit := do
  if !(← takeWord name) then missing

/-- Whether a test holds of what follows. It moves nothing, and a fault in it means no. -/
def lookahead (test : Parser Bool) : Parser Bool := do
  let s ← get
  let (found, after) := test.run { s with fault := none }
  return found && after.fault.isNone

def nextLexeme : Parser Lexeme := return (← get).advance.current.lexeme

def nextIs (test : Lexed → Bool) : Parser Bool := return test (← get).advance.current

def attempt (p : Parser α) : Parser (Option α) := do
  let s ← get
  let (found, after) := p.run s
  if after.fault.isSome then
    set { s with notArrows := after.notArrows }
    return none
  set after
  return some found

def within (change : Context → Context) (p : Parser α) : Parser α := do
  let saved ← context
  modify fun s => { s with context := change s.context }
  let a ← p
  modify fun s => { s with context := saved }
  return a

def withIn (p : Parser α) : Parser α := within ({ · with inOperator := true }) p

def optionally (test : Parser Bool) (p : Parser α) : Parser (Option α) := do
  if ← test then some <$> p else return none

def between (opening close : String) (p : Parser α) : Parser α := do
  need opening
  let found ← p
  need close
  return found

def kindOf (id : NodeId) : Parser Kind := return (← get).arena.kind id

def rangeOf (id : NodeId) : Parser Range := return (← get).arena.range id

def complainOf (id : NodeId) : Parser Unit := do complain (← rangeOf id).start

def faultOf [Blank α] (id : NodeId) : Parser α := do faultAt (← rangeOf id).start

/-- The kind of an expression that is not in parentheses. -/
def bareKind? (id : NodeId) : Parser (Option Kind) := do
  let s ← get
  return if (s.parenthesized.lookup id).isNone then some (s.arena.kind id) else none

/-- Gives a node another kind and makes it the parent of what that kind holds. -/
def become (id : NodeId) (k : Kind) : Parser Unit :=
  modify fun s =>
    { s with
      arena := k.childIds.foldl (fun a c => a.setParent c (some id)) (s.arena.setKind id k) }

def source : Parser String := do
  let current := (← get).current
  return String.ofList
    ((Text.takeBytes? current.text (current.range.stop - current.range.start)).getD [])

/-- Repeats a step until it has nothing more to do, at most as often as the fuel is long. -/
def repeatAlong (step : σ → Parser (Option σ)) : Text → σ → Parser σ
  | [], a => return a
  | _ :: fuel, a => do
    match ← step a with
    | some b => repeatAlong step fuel b
    | none => return a

/-- Repeats a step that moves on each time, until it has nothing more to do. After the last
character there is one lexeme more, and one step that finds nothing. -/
def iterate (step : σ → Parser (Option σ)) (a : σ) : Parser σ := do
  repeatAlong step (' ' :: ' ' :: (← get).current.rest) a

def eachAfter (mark : String) (item : Parser α) : Parser (List α) := do
  let found ← iterate (fun (xs : List α) => do
    if ← take mark then return some ((← item) :: xs) else return none) []
  return found.reverse

def atStop : Parser Bool := return (← lexeme) == .stop

/-- Whether nothing is left that can be read. -/
def atEnd : Parser Bool := return (← lexeme) == .stop || (← lexeme) == .unreadable || (← faulted)

/-- Collects items until the lexeme that `stop` looks for, or as long as there is something to
read. -/
def manyUntil (stop : Parser Bool) (item : Parser α) : Parser (List α) := do
  let found ← iterate (fun (xs : List α) => do
    if (← stop) || (← atEnd) then return none else return some ((← item) :: xs)) []
  return found.reverse

/-- Items between separators, up to the closing mark, which is not taken, and the place of a
separator after the last one. -/
def separated (close : String) (item : Parser α) : Parser (List α × Option Nat) := do
  if (← sees close) || (← atEnd) then return ([], none)
  let first ← item
  let (found, trailing) ← iterate (fun (st : List α × Option Nat) => do
    if st.2.isSome || (← sees close) || (← atEnd) then return none
    let place ← here
    if !(← take ",") then return ← faultAt place
    if ← sees close then return some (st.1, some place)
    return some ((← item) :: st.1, none)) ([first], none)
  return (found.reverse, trailing)

def enclosed (opening close : String) (item : Parser α) : Parser (List α) :=
  between opening close do return (← separated close item).1

def canEndStatement : Parser Bool := do
  return (← sees ";") || (← sees closeBrace) || (← atStop) || (← onNewLine)

/-- Ends a statement: at its semicolon, or where one may be left out. -/
def endStatement : Parser Unit := do
  if !(← canEndStatement) then faultAt (← lastStop)
  let _ ← take ";"

/-- Reads the opening angle bracket of a longer mark alone. -/
def splitAngle : Parser Unit := do
  if (← seesAny ["<<", "<=", "<<="]) && !(← faulted) then
    modify fun s => s.reread s.ahead ⟨.mark "<", 1, []⟩

/-- Joins a closing angle bracket with what follows it into one operator. -/
def joinAngles : Parser Unit := do
  if (← sees ">") && !(← faulted) then
    modify fun s =>
      match Lexer.angleMarks.find? (·.isPrefixOf s.ahead) with
      | some m => s.reread s.ahead ⟨.mark (String.ofList m), m.length, []⟩
      | none => s

end Parser

end Loom.Script
