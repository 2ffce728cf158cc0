import Loom.Text

/-!
Conversion between byte offsets and line/column positions of one fixed text.

Lines end at line feeds only. `position` and `offset?` are inverse to each other on boundaries; a
column may also name the place just after the line feed of its line, which is the start of the next
line.
-/

namespace Loom

/-- A text together with the offsets at which its lines start, and the positions of all its offsets
in order. -/
structure Coordinates where
  text : Text
  lineStarts : List Nat
  positions : Array Position
deriving Inhabited

namespace Coordinates

/-- The offsets just after each line feed of a text whose first character is at `offset`. -/
def lineStartsFrom (offset : Nat) : Text → List Nat
  | [] => []
  | c :: cs =>
    if c = '\n' then (offset + 1) :: lineStartsFrom (offset + 1) cs
    else lineStartsFrom (offset + c.utf8Size) cs

/-- Adds the positions of the offsets of a text whose first character is at `p`, `bytes` after the
start of its line. Inside a character, the column is the distance in bytes from the start of the
line. -/
def positionsFrom (known : Array Position) (p : Position) (bytes : Nat) : Text → Array Position
  | [] => known.push p
  | c :: cs =>
    let known := (List.range (c.utf8Size - 1)).foldl
      (fun known n => known.push ⟨p.line, bytes + n + 1⟩) (known.push p)
    if c = '\n' then positionsFrom known ⟨p.line + 1, 0⟩ 0 cs
    else positionsFrom known ⟨p.line, p.column + 1⟩ (bytes + c.utf8Size) cs

def ofText (text : Text) : Coordinates :=
  ⟨text, 0 :: lineStartsFrom 0 text, positionsFrom #[] ⟨1, 0⟩ 0 text⟩

variable (c : Coordinates)

def lineCount : Nat := c.lineStarts.length

/-- The position of an offset; offsets past the end count as the end. -/
def position (offset : Nat) : Position :=
  c.positions.getD (min offset (c.positions.size - 1)) default

def location (r : Range) : Location := ⟨c.position r.start, c.position r.stop⟩

/-- The offset of a position, if the text has it. -/
def offset? (p : Position) : Option Nat :=
  if p.line = 0 then none
  else do
    let lineStart ← c.lineStarts[p.line - 1]?
    let lineStop := c.lineStarts.getD p.line (Text.byteSize c.text)
    let line := Text.slice c.text ⟨lineStart, lineStop⟩
    if p.column ≤ line.length then some (lineStart + Text.byteSize (line.take p.column))
    else none

def slice (c : Coordinates) (r : Range) : String := String.ofList (Text.slice c.text r)

end Coordinates

end Loom
