import Loom.Text.Property
import Loom.Tree.Slot

/-!
Virtual scripts: a script text made of copied parts of a source and of scaffolding around them.

Each copied part has a breakpoint, inside which generated and source offsets differ by a constant.
Scaffolding has none, so it never maps back. A task remembers one wrapper: the range of the
statement it became, the fragments copied into it, and what is to be done with the statement once it
is parsed.
-/

namespace Loom

/-- A copied part: `length` bytes from `source` on stand at `generated`. -/
structure Breakpoint where
  source : Nat
  generated : Nat
  length : Nat
deriving DecidableEq, Repr, Inhabited

namespace Breakpoint

def stop (b : Breakpoint) : Nat := b.generated + b.length

/-- The source offset of a generated one, both counted from the start of the part. -/
def toSource (b : Breakpoint) (offset : Nat) : Nat := b.source + (offset - b.generated)

end Breakpoint

/-- A part of the source copied into a wrapper for a slot of a markup node. -/
structure Fragment where
  owner : NodeId
  field : SlotField
  source : Range
  generated : Range
deriving DecidableEq, Repr, Inhabited

def Fragment.delta (f : Fragment) : Int := (f.generated.start : Int) - f.source.start

inductive Action where
  /-- An expression statement in parentheses. -/
  | expression
  /-- An `if` statement; the branches belong to the owners. -/
  | ifBlock (owner : NodeId) (elseOwner : Option NodeId)
  /-- A loop callback; its first parameter may be a placeholder. -/
  | eachBlock (owner : NodeId) (syntheticContext : Bool)
  /-- An arrow function whose parameters are the fragments. -/
  | callback (owner : NodeId)
  /-- A function declaration: its name and parameters are the fragments. -/
  | snippet (owner : NodeId)
  /-- A constant declaration with one declarator. -/
  | constTag
deriving DecidableEq, Repr, Inhabited

def Action.name : Action → String
  | .expression => "expression"
  | .ifBlock .. => "if-block"
  | .eachBlock .. => "each-block"
  | .callback _ => "callback"
  | .snippet _ => "snippet"
  | .constTag => "const-tag"

structure Task where
  range : Range
  /-- The source offset of the construct, for messages. -/
  anchor : Nat
  fragments : List Fragment
  action : Action
deriving DecidableEq, Repr, Inhabited

/-- Tasks in the order of their starts, an enclosing one before those inside it. -/
def Task.precedes (x y : Task) : Bool :=
  x.range.start < y.range.start || (x.range.start == y.range.start && y.range.stop ≤ x.range.stop)

structure VirtualScript where
  text : Text
  breakpoints : List Breakpoint
  tasks : List Task
  /-- The end of the content; what follows is padding. -/
  sentinel : Nat
deriving Inhabited

structure Draft where
  source : Text
  text : Text
  breakpoints : List Breakpoint
  tasks : List Task
  sentinel : Option Nat
deriving Inhabited

namespace Draft

def ofSource (source : Text) : Draft := ⟨source, [], [], [], none⟩

variable (d : Draft)

def offset : Nat := Text.byteSize d.text

/-- The breakpoints with one more copied part, which lengthens the last one when it continues it in
both texts. Empty parts leave no trace. -/
def addBreakpoint : List Breakpoint → Breakpoint → List Breakpoint
  | [], b => if b.length = 0 then [] else [b]
  | [last], b =>
    if last.stop = b.generated ∧ last.source + last.length = b.source then
      [{ last with length := last.length + b.length }]
    else if b.length = 0 then [last]
    else [last, b]
  | x :: y :: rest, b => x :: addBreakpoint (y :: rest) b

/-- Appends a part of the source and tells where it landed. A range that does not cut the source at
boundaries copies nothing. -/
def copy (r : Range) : Range × Draft :=
  let part := Text.slice d.source r
  let start := d.offset
  let length := Text.byteSize part
  (⟨start, start + length⟩,
    { d with
      text := d.text ++ part
      breakpoints := addBreakpoint d.breakpoints ⟨r.start, start, length⟩ })

def copyFragment (owner : NodeId) (field : SlotField) (r : Range) : Fragment × Draft :=
  let (generated, d) := d.copy r
  (⟨owner, field, r, generated⟩, d)

def synthetic (text : String) : Draft := { d with text := d.text ++ text.toList }

/-- Adds a task for everything since `start`. -/
def pushTask (start anchor : Nat) (fragments : List Fragment) (action : Action) : Draft :=
  { d with tasks := d.tasks ++ [⟨⟨start, d.offset⟩, anchor, fragments, action⟩] }

def markSentinel : Draft := { d with sentinel := some d.offset }

def finish : VirtualScript where
  text := d.text
  breakpoints := d.breakpoints
  tasks := d.tasks.mergeSort Task.precedes
  sentinel := d.sentinel.getD d.offset

end Draft

namespace VirtualScript

variable (s : VirtualScript)

/-- The source offset of a generated one that starts on copied text. -/
def mapStart (offset : Nat) : Option Nat :=
  (s.breakpoints.find? fun b => b.generated ≤ offset && offset < b.stop).map (·.toSource offset)

def mapEnd (offset : Nat) : Option Nat :=
  (s.breakpoints.find? fun b => b.generated < offset && offset ≤ b.stop).map (·.toSource offset)

/-- The end of a range that runs into scaffolding: the last character of the copied text in it that
is not blank. There is none where the copied text cannot be cut, because the range starts inside a
character. -/
def absorbedEnd (r : Range) : Option Nat := do
  let b ← s.breakpoints.reverse.find? fun b => b.stop ≤ r.stop && r.start < b.stop
  let from_ := max b.generated r.start
  let copied ← Text.slice? s.text ⟨from_, b.stop⟩
  some (b.toSource from_ + Text.byteSize (Text.trimEndWhile Text.Property.isBlank copied))

/-- The source range of a generated one that starts on copied text. -/
def mapRange (r : Range) : Option Range := do
  let start ← s.mapStart r.start
  let stop ← (s.mapEnd r.stop).or (s.absorbedEnd r)
  some ⟨start, max stop start⟩

/-- The source ranges of all copied parts that overlap a generated range. -/
def mappedSpans (r : Range) : List Range :=
  s.breakpoints.filterMap fun b =>
    let start := max r.start b.generated
    let stop := min r.stop b.stop
    if start < stop then some ⟨b.toSource start, b.toSource stop⟩ else none

/-- The best source offset for a message about a generated one: its own when it is copied text, else
the end of the copied text before it, else the start of the first copied text. -/
def errorOffset (offset : Nat) : Nat :=
  let before := (s.breakpoints.reverse.find? (·.stop ≤ offset)).map fun b => b.source + b.length
  (((s.mapStart offset).or before).or (s.breakpoints.head?.map (·.source))).getD 0

end VirtualScript

end Loom
