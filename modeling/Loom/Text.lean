import Loom.Range

/-!
Texts as lists of characters, measured and cut in bytes of their UTF-8 form.

A byte offset is a *boundary* of a text when no character lies across it. Cutting succeeds exactly
at boundaries, so a slice is always a run of whole characters.
-/

namespace Loom

abbrev Text := List Char

namespace Text

/-- The number of bytes of the UTF-8 form. -/
def byteSize : Text → Nat
  | [] => 0
  | c :: cs => c.utf8Size + byteSize cs

/-- The bytes of a text, each as the character with its code. -/
def bytes (cs : Text) : Text := cs.flatMap fun c => (String.utf8EncodeChar c).map Char.ofUInt8

/-- The text after its first `n` bytes, when `n` is a boundary. -/
def dropBytes? : Text → Nat → Option Text
  | cs, 0 => some cs
  | [], _ + 1 => none
  | c :: cs, n + 1 => if n + 1 < c.utf8Size then none else dropBytes? cs (n + 1 - c.utf8Size)

/-- The first `n` bytes of the text, when `n` is a boundary. -/
def takeBytes? : Text → Nat → Option Text
  | _, 0 => some []
  | [], _ + 1 => none
  | c :: cs, n + 1 =>
    if n + 1 < c.utf8Size then none else (takeBytes? cs (n + 1 - c.utf8Size)).map (c :: ·)

/-- The characters in a range, when the range is ordered and both ends are boundaries. -/
def slice? (cs : Text) (r : Range) : Option Text :=
  if r.stop < r.start then none
  else (dropBytes? cs r.start).bind (takeBytes? · (r.stop - r.start))

/-- The characters in a range; none when the range does not cut the text at boundaries. -/
def slice (cs : Text) (r : Range) : Text := (slice? cs r).getD []

/-- Whether no character lies across the offset and the offset is not past the end. -/
def isBoundary (cs : Text) (n : Nat) : Bool := (dropBytes? cs n).isSome

/-- The text without the characters of a class at its end. -/
def trimEndWhile (p : Char → Bool) (cs : Text) : Text := (cs.reverse.dropWhile p).reverse

def contains (cs pat : Text) : Bool :=
  match cs with
  | [] => pat.isEmpty
  | c :: rest => pat.isPrefixOf (c :: rest) || contains rest pat

end Text

end Loom
