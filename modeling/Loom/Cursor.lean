import Loom.Token

/-!
Cursors: items in the order of their starts, to be taken out range by range.
-/

namespace Loom

/-- The items not taken yet, sorted by start. -/
structure Cursor (α : Type) where
  items : List α
deriving Inhabited

namespace Cursor

variable {α : Type} [Ranged α]

def start (x : α) : Nat := (Ranged.range x).start

def stop (x : α) : Nat := (Ranged.range x).stop

/-- Items in the order of their starts; equal starts keep their order. -/
def sortByStart (items : List α) : List α := items.mergeSort fun x y => start x ≤ start y

def ofList (items : List α) : Cursor α := ⟨sortByStart items⟩

/-- Takes out the items inside a range. Only those that start in it are looked at. -/
def takeWithin (c : Cursor α) (r : Range) : List α × Cursor α :=
  let before := c.items.takeWhile (start · < r.start)
  let rest := c.items.dropWhile (start · < r.start)
  let window := rest.takeWhile (start · < r.stop)
  let after := rest.dropWhile (start · < r.stop)
  (window.filter (stop · ≤ r.stop),
    ⟨before ++ window.filter (r.stop < stop ·) ++ after⟩)

def remaining (c : Cursor α) : List α := c.items

end Cursor

end Loom
