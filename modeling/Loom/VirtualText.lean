import Loom.Token
import Loom.VirtualScript

/-!
Virtual texts: a source copied from left to right, with parts left out and labelled text put in.

Unlike the scaffolding of a virtual script, text put in here has an anchor, the part of the source
it stands for, and places inside it map to the ends of the anchor.
-/

namespace Loom

structure Insertion where
  /-- The labels of the insertions that make up the run, joined by `+`. -/
  label : String
  generated : Range
  /-- The source text it stands for; empty when it replaces nothing. -/
  anchor : Range
deriving DecidableEq, Repr, Inhabited

/-- The name and the contents of a file for a type checker. -/
structure VirtualFile where
  fileName : String
  text : String
deriving DecidableEq, Repr, Inhabited

def VirtualFile.ofText (path : String) (typescript : Bool) (text : Text) : VirtualFile :=
  ⟨path ++ "." ++ (if typescript then "ts" else "js"), String.ofList text⟩

structure VirtualText where
  text : Text
  breakpoints : List Breakpoint
  insertions : List Insertion
deriving Inhabited

/-- A virtual text in the making: the source is used up to `cursor`. -/
structure TextDraft where
  source : Text
  cursor : Nat
  /-- Source text left out since the last copy or insertion. -/
  skipped : Option Range
  text : Text
  breakpoints : List Breakpoint
  insertions : List Insertion
deriving Inhabited

namespace TextDraft

def ofSource (source : Text) : TextDraft := ⟨source, 0, none, [], [], []⟩

variable (d : TextDraft)

/-- Copies the source from the cursor up to `offset`. -/
def copyUpTo (offset : Nat) : TextDraft :=
  if offset ≤ d.cursor then { d with skipped := none }
  else
    let part := Text.slice d.source ⟨d.cursor, offset⟩
    { d with
      skipped := none
      breakpoints := d.breakpoints ++ [⟨d.cursor, Text.byteSize d.text, Text.byteSize part⟩]
      text := d.text ++ part
      cursor := offset }

/-- Leaves out the source up to `offset`; the next insertion stands for it. -/
def skipUpTo (offset : Nat) : TextDraft :=
  if offset ≤ d.cursor then d
  else
    { d with
      skipped := some ⟨(d.skipped.map (·.start)).getD d.cursor, offset⟩
      cursor := offset }

/-- The label of a run with one more insertion; a label occurs once. -/
def joinLabel (label more : String) : String :=
  if (label.splitOn "+").contains more then label else label ++ "+" ++ more

/-- The insertions with one more, which lengthens the last one when nothing lies between. -/
def addInsertion : List Insertion → Insertion → List Insertion
  | [], i => [i]
  | [last], i =>
    if last.generated.stop = i.generated.start then
      [{ label := joinLabel last.label i.label
         generated := ⟨last.generated.start, i.generated.stop⟩
         anchor := ⟨last.anchor.start, max last.anchor.stop i.anchor.stop⟩ }]
    else [last, i]
  | x :: y :: rest, i => x :: addInsertion (y :: rest) i

/-- Inserts text that stands for what was left out. -/
def insert (label text : String) : TextDraft :=
  if text.isEmpty then d
  else
    let anchor := d.skipped.getD ⟨d.cursor, d.cursor⟩
    let start := Text.byteSize d.text
    let generated : Range := ⟨start, start + Text.byteSize text.toList⟩
    { d with
      skipped := none
      text := d.text ++ text.toList
      insertions := addInsertion d.insertions ⟨label, generated, anchor⟩ }

def finish : VirtualText := ⟨d.text, d.breakpoints, d.insertions⟩

end TextDraft

namespace VirtualText

variable (t : VirtualText)

/-- The source offset of a copied one; both ends of a copied part belong to it. -/
def mapCopied (offset : Nat) : Option Nat :=
  (t.breakpoints.find? fun b => b.generated ≤ offset && offset ≤ b.stop).map (·.toSource offset)

def mapStart (offset : Nat) : Option Nat :=
  match t.insertions.find? fun i => i.generated.start ≤ offset && offset < i.generated.stop with
  | some i => some i.anchor.start
  | none => t.mapCopied offset

def mapEnd (offset : Nat) : Option Nat :=
  match t.insertions.find? fun i => i.generated.start < offset && offset ≤ i.generated.stop with
  | some i => some i.anchor.stop
  | none => t.mapCopied offset

def mapRange (r : Range) : Option Range := do
  let start ← t.mapStart r.start
  let stop ← t.mapEnd r.stop
  some ⟨start, max stop start⟩

/-- Whether a range lies inside one run of inserted text. -/
def isSynthetic (r : Range) : Bool := t.insertions.any (·.generated.contains r)

/-- Moves items to the source and drops those made of inserted text alone. -/
def project [Ranged α] (t : VirtualText) (items : List α) (coords : Coordinates) : List α :=
  items.filterMap fun x =>
    let r := Ranged.range x
    if t.isSynthetic r then none else (t.mapRange r).map (Ranged.place x · coords)

/-- The best source offset for a message about a generated one. -/
def errorOffset (offset : Nat) : Nat :=
  ((t.mapStart offset).or
    ((t.breakpoints.reverse.find? (·.generated ≤ offset)).map fun b => b.source + b.length)).getD 0

end VirtualText

end Loom
