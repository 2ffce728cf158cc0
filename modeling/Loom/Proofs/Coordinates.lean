import Loom.Coordinates
import Loom.Proofs.Text
import Mathlib.Data.List.Induction

/-!
Offsets and positions of a text.

The position of a boundary is where one gets to by reading the text before it, so a boundary is a
way to split the text. The starts of the lines are the boundaries in column 0. A position is found
again from the start of its line, as many characters further as its column says; only past a line
feed does this lead to another position.
-/

open List

namespace Loom

open Text Option

namespace Position

variable {pre cs : Text} {p q : Position} {c : Char}

/-- The place of the text that comes first: on an earlier line, or on the same line in an earlier
column. -/
def Before (p q : Position) : Prop := p.line < q.line ∨ p.line = q.line ∧ p.column < q.column

/-- The position behind one more character. -/
def next (p : Position) (c : Char) : Position :=
  if c = '\n' then ⟨p.line + 1, 0⟩ else ⟨p.line, p.column + 1⟩

/-- The position behind some more text. -/
def after (p : Position) (cs : Text) : Position := cs.foldl next p

@[simp] theorem after_nil : p.after [] = p := rfl

@[simp] theorem after_cons : p.after (c :: cs) = (p.next c).after cs := rfl

theorem after_append : p.after (pre ++ cs) = (p.after pre).after cs := foldl_append

theorem Before.trans {o : Position} (h : p.Before q) (h' : q.Before o) : p.Before o := by
  unfold Before at h h' ⊢
  omega

theorem before_next (p : Position) (c : Char) : p.Before (p.next c) := by
  unfold Before next
  split <;> simp

/-- Reading goes forward. -/
theorem before_after (p : Position) (h : cs ≠ []) : p.Before (p.after cs) := by
  induction cs generalizing p with
  | nil => exact absurd rfl h
  | cons c cs ih =>
    cases cs with
    | nil => exact before_next p c
    | cons d cs => exact (before_next p c).trans (ih (p.next c) (by simp))

theorem line_le_after (p : Position) (cs : Text) : p.line ≤ (p.after cs).line := by
  cases cs with
  | nil => exact Nat.le_refl _
  | cons c cs =>
    have hbefore := before_after p (cons_ne_nil c cs)
    unfold Before at hbefore
    omega

theorem after_of_no_newline (h : '\n' ∉ cs) : p.after cs = ⟨p.line, p.column + cs.length⟩ := by
  induction cs generalizing p with
  | nil => rfl
  | cons c cs ih =>
    rw [mem_cons, not_or] at h
    have hnext : p.next c = ⟨p.line, p.column + 1⟩ := if_neg (Ne.symm h.1)
    rw [after_cons, hnext, ih h.2, length_cons]
    simp only [Position.mk.injEq, true_and]
    omega

/-- From the start of a text, column 0 of a line is as far back as the column says. -/
theorem exists_line_start (pre : Text) : ∃ before line, pre = before ++ line ∧ '\n' ∉ line ∧
    (⟨1, 0⟩ : Position).after before = ⟨((⟨1, 0⟩ : Position).after pre).line, 0⟩ ∧
    line.length = ((⟨1, 0⟩ : Position).after pre).column := by
  induction pre using List.reverseRecOn with
  | nil => exact ⟨[], [], rfl, by simp, rfl, rfl⟩
  | append_singleton pre c ih =>
    obtain ⟨before, line, hpre, hline, hstart, hlength⟩ := ih
    by_cases hc : c = '\n'
    · exact ⟨pre ++ [c], [], by simp, by simp, by simp [after_append, next, hc], by simp [after_append, next, hc]⟩
    · exact ⟨before,
        line ++ [c], by simp [hpre], by simp [hline, Ne.symm hc], by simp [after_append, next, hc, hstart],
        by simp [after_append, next, hc, hlength]⟩

end Position

namespace Coordinates

variable {offset o : Nat} {rest line post text pre cs : Text} {c : Char} {p : Position}

theorem text_ofText : (ofText text).text = text := rfl

/-! The table of positions. -/

/-- A character has an entry for each of its bytes, of which the first is its position. -/
theorem positionsFrom_cons (known : Array Position) (p : Position) (bytes : Nat) (c : Char)
    (cs : Text) :
    ∃ (entries : Array Position) (bytes' : Nat), entries.size = c.utf8Size ∧ entries[0]? = some p ∧
      positionsFrom known p bytes (c :: cs) = positionsFrom (known ++ entries) (p.next c) bytes' cs := by
  have hpos := c.utf8Size_pos
  refine ⟨#[p] ++ ((List.range (c.utf8Size - 1)).map fun n => ⟨p.line, bytes + n + 1⟩).toArray,
    if c = '\n' then 0 else bytes + c.utf8Size, ?_, by simp, ?_⟩
  · simp
    omega
  · rw [positionsFrom, foldl_push_eq_append, Array.push_eq_append, Array.append_assoc,
      Position.next]
    split <;> rfl

/-- The positions of a text come after those that are known, one for each byte and one for the end.
The entry of a boundary is the position behind the text before it. -/
theorem positionsFrom_eq_append (known : Array Position) (p : Position) (bytes : Nat) (cs : Text) :
    ∃ more : Array Position, positionsFrom known p bytes cs = known ++ more ∧
      more.size = Text.byteSize cs + 1 ∧
      ∀ pre post, cs = pre ++ post → more[Text.byteSize pre]? = some (p.after pre) := by
  induction cs generalizing known p bytes with
  | nil =>
    refine ⟨#[p], by simp [positionsFrom], rfl, fun pre post hsplit => ?_⟩
    rw [(append_eq_nil_iff.mp hsplit.symm).1]
    rfl
  | cons c cs ih =>
    obtain ⟨entries, bytes', hsize, hfirst, heq⟩ := positionsFrom_cons known p bytes c cs
    obtain ⟨more, hmore, hsize', hboundary⟩ := ih (known ++ entries) (p.next c) bytes'
    have hpos := c.utf8Size_pos
    refine ⟨entries ++ more, by rw [heq, hmore, Array.append_assoc], ?_, fun pre post hsplit => ?_⟩
    · rw [Array.size_append, hsize, hsize', byteSize_cons, Nat.add_assoc]
    · cases pre with
      | nil =>
        rw [byteSize_nil, Array.getElem?_append_left (by omega), hfirst]
        rfl
      | cons d pre =>
        obtain ⟨rfl, hrest⟩ := List.cons.inj hsplit
        rw [byteSize_cons, Array.getElem?_append_right (by omega), hsize, Nat.add_sub_cancel_left]
        exact hboundary pre post hrest

/-- The position of a boundary. -/
theorem position_append (pre cs : Text) :
    (ofText (pre ++ cs)).position (Text.byteSize pre) = (⟨1, 0⟩ : Position).after pre := by
  obtain ⟨more, hmore, hsize, hboundary⟩ := positionsFrom_eq_append #[] ⟨1, 0⟩ 0 (pre ++ cs)
  have hpositions : (ofText (pre ++ cs)).positions =
      more := by rw [ofText, hmore, Array.empty_append]
  have hmin : min (Text.byteSize pre) (Text.byteSize (pre ++ cs) + 1 - 1) = Text.byteSize pre := by
    rw [byteSize_append]
    omega
  rw [position, hpositions, hsize, hmin, Array.getD_eq_getD_getElem?, hboundary pre cs rfl,
    getD_some]

/-! The starts of the lines. -/

theorem lineStartsFrom_append :
    lineStartsFrom offset (cs ++ rest) = lineStartsFrom offset cs ++
      lineStartsFrom (offset + Text.byteSize cs) rest := by
  induction cs generalizing offset with
  | nil => rfl
  | cons c cs ih =>
    by_cases hc : c = '\n'
    · have hsize : c.utf8Size = 1 := by rw [hc]; decide
      simp only [cons_append, lineStartsFrom, if_pos hc, ih, byteSize_cons, hsize, Nat.add_assoc]
    · simp only [cons_append, lineStartsFrom, if_neg hc, ih, byteSize_cons, Nat.add_assoc]

/-- A line feed at the end of a text starts a line. -/
theorem lineStarts_concat :
    (ofText (cs ++ [c])).lineStarts = (ofText cs).lineStarts ++ if c =
      '\n' then [Text.byteSize (cs ++ [c])] else [] := by
  rw [ofText, ofText, lineStartsFrom_append]
  by_cases hc : c = '\n'
  · simp [lineStartsFrom, hc]
    rfl
  · simp [lineStartsFrom, hc]

theorem length_lineStarts :
    (ofText text).lineStarts.length = ((⟨1, 0⟩ : Position).after text).line := by
  induction text using List.reverseRecOn with
  | nil => rfl
  | append_singleton text c ih =>
    rw [lineStarts_concat, length_append, ih, Position.after_append]
    by_cases hc : c = '\n' <;> simp [Position.next, hc]

/-- To split a text with one more character is to split the text, or to split behind that
character. -/
theorem exists_split_concat {P : Text → Prop} :
    (∃ pre rest, cs ++ [c] = pre ++ rest ∧ P pre) ↔ (∃ pre rest, cs = pre ++ rest ∧ P pre) ∨
      P (cs ++ [c]) := by
  constructor
  · rintro ⟨pre, rest, hsplit, hpre⟩
    rcases eq_nil_or_concat rest with rfl | ⟨rest, d, rfl⟩
    · exact .inr (by rwa [hsplit, append_nil])
    · rw [concat_eq_append, ← append_assoc] at hsplit
      exact .inl ⟨pre, rest, (append_inj' hsplit rfl).1, hpre⟩
  · rintro (⟨pre, rest, rfl, hpre⟩ | hall)
    · exact ⟨pre, rest ++ [c], append_assoc .., hpre⟩
    · exact ⟨cs ++ [c], [], (append_nil _).symm, hall⟩

/-- Line `n + 1` starts at the boundary whose position is its column 0. -/
theorem lineStarts_getElem? {n s : Nat} :
    (ofText text).lineStarts[n]? = some s ↔ ∃ pre rest, text = pre ++ rest ∧ s = Text.byteSize pre ∧
      (⟨1, 0⟩ : Position).after pre = ⟨n + 1, 0⟩ := by
  induction text using List.reverseRecOn with
  | nil =>
    cases n with
    | zero =>
      rw [ofText]
      simp [eq_comm]
    | succ n => simp [ofText, lineStartsFrom]
  | append_singleton text c ih =>
    rw [lineStarts_concat, exists_split_concat, ← ih, Position.after_append]
    by_cases hc : c = '\n'
    · rw [getElem?_append, length_lineStarts]
      simp only [Position.after_cons, Position.after_nil, Position.next, if_pos hc,
        Position.mk.injEq, and_true, Nat.add_right_cancel_iff]
      split
      case isTrue hlt => simp [Nat.ne_of_gt hlt]
      case isFalse hge =>
        have hnone : (ofText text).lineStarts[n]? = none := by
          rw [getElem?_eq_none_iff, length_lineStarts]
          exact Nat.le_of_not_lt hge
        rw [hnone, getElem?_singleton]
        split
        · simp [eq_comm]
          omega
        · simp
          omega
    · simp [Position.next, hc]

/-! Lines. -/

/-- From the start of a line, the line goes up to its line feed or to the end of the text. -/
theorem exists_line {n : Nat} (rest : Text) (hpre : (⟨1, 0⟩ : Position).after pre = ⟨n + 1, 0⟩) :
    ∃ line post, rest = line ++ post ∧ '\n' ∉ line.dropLast ∧
      (post = [] ∨ ∃ body, line = body ++ ['\n']) ∧
      (ofText (pre ++ rest)).lineStarts.getD (n + 1) (Text.byteSize (pre ++ rest)) =
        Text.byteSize (pre ++ line) := by
  rw [getD_eq_getElem?_getD]
  by_cases hmem : '\n' ∈ rest
  · obtain ⟨body, post, rfl, hbody⟩ := eq_append_cons_of_mem hmem
    have hstart : (ofText (pre ++ (body ++ '\n' :: post))).lineStarts[n + 1]? =
        some (Text.byteSize (pre ++ (body ++ ['\n']))) := by
      refine lineStarts_getElem?.mpr ⟨_, post, by simp, rfl, ?_⟩
      rw [Position.after_append, Position.after_append, hpre, Position.after_of_no_newline hbody]
      rfl
    exact ⟨body ++ ['\n'], post, by simp, by simpa using hbody,
      .inr ⟨body, rfl⟩, by rw [hstart, getD_some]⟩
  · have hlines : (ofText (pre ++ rest)).lineStarts.length = n + 1 := by
      rw [length_lineStarts, Position.after_append, hpre, Position.after_of_no_newline hmem]
    have hlast := getElem?_eq_none_iff.mpr (Nat.le_of_eq hlines)
    exact ⟨rest, [], (append_nil _).symm, fun h => hmem (dropLast_subset _ h), .inl rfl,
      by rw [hlast, getD_none]⟩

theorem slice_middle :
    Text.slice (pre ++ (line ++ post)) ⟨Text.byteSize pre, Text.byteSize (pre ++ line)⟩ = line := by
  have hslice : Text.slice? (pre ++ (line ++ post))
      ⟨Text.byteSize pre, Text.byteSize (pre ++ line)⟩ = some line :=
    Text.slice?_eq_some.mpr ⟨by simp, pre, post, by simp, rfl, by simp⟩
  rw [Text.slice, hslice, getD_some]

/-- A position is found on its line, as many characters from the start as its column says; a line
feed is the last of them, if it is one of them at all. -/
theorem offset?_eq_some_iff :
    (ofText text).offset? p = some o ↔ ∃ pre part rest, text = pre ++ (part ++ rest) ∧
    (⟨1, 0⟩ : Position).after pre = ⟨p.line, 0⟩ ∧ part.length = p.column ∧ '\n' ∉ part.dropLast ∧
    o = Text.byteSize (pre ++ part) := by
  unfold offset?
  by_cases hline : p.line = 0
  · rw [if_pos hline]
    simp only [reduceCtorEq, false_iff]
    rintro ⟨pre, part, rest, -, hpre, -⟩
    have hle := Position.line_le_after ⟨1, 0⟩ pre
    rw [hpre, hline] at hle
    exact absurd hle (Nat.not_succ_le_zero _)
  · obtain ⟨n, hn⟩ := Nat.exists_eq_succ_of_ne_zero hline
    rw [if_neg hline, hn, Nat.succ_sub_one]
    simp only [bind_eq_bind, bind_eq_some_iff, lineStarts_getElem?]
    constructor
    · rintro ⟨s, ⟨pre, rest, rfl, rfl, hpre⟩, hfound⟩
      obtain ⟨line, post, rfl, hbody, -, hstop⟩ := exists_line rest hpre
      rw [text_ofText, hstop, slice_middle] at hfound
      split at hfound
      case isTrue hcolumn =>
        rw [← take_append_drop p.column line] at hbody
        refine ⟨pre, line.take p.column, line.drop p.column ++ post, ?_, hpre, length_take_of_le hcolumn, ?_, ?_⟩
        · rw [← append_assoc (line.take p.column), take_append_drop]
        · intro hmem
          rw [dropLast_append] at hbody
          split at hbody
          · exact hbody hmem
          · exact hbody (mem_append_left _ (dropLast_subset _ hmem))
        · rw [byteSize_append]
          exact (some.inj hfound).symm
      case isFalse => cases hfound
    · rintro ⟨pre, part, rest, rfl, hpre, hlength, hpart, rfl⟩
      refine ⟨Text.byteSize pre, ⟨pre, part ++ rest, rfl, rfl, hpre⟩, ?_⟩
      obtain ⟨line, post, hsplit, -, hlast, hstop⟩ := exists_line (part ++ rest) hpre
      have hprefix : part <+: line := by
        rcases append_eq_append_iff.mp hsplit with ⟨more, rfl, -⟩ | ⟨more, rfl, rfl⟩
        · exact ⟨more, rfl⟩
        · -- What goes past the line would have its line feed before the last character.
          cases more with
          | nil => simp
          | cons c more =>
            obtain ⟨body, rfl⟩ := hlast.resolve_left (by simp)
            exact absurd (by simp) hpart
      rw [text_ofText, hstop, hsplit, slice_middle, ← hlength, if_pos hprefix.length_le,
        ← prefix_iff_eq_take.mp hprefix, byteSize_append]

/-! Positions and offsets. -/

/-- The place just past the line feed that ends the line of `p`; it is the start `o` of the next
line. -/
structure PastNewline (text : Text) (p : Position) (o : Nat) : Prop where
  newline : Text.slice? text ⟨o - 1, o⟩ = some ['\n']
  column : p = ⟨((ofText text).position (o - 1)).line, ((ofText text).position (o - 1)).column + 1⟩
  next : (ofText text).position o = ⟨p.line + 1, 0⟩

theorem offset?_position (pre cs : Text) :
    (ofText (pre ++ cs)).offset? ((⟨1, 0⟩ : Position).after pre) = some (Text.byteSize pre) := by
  obtain ⟨before, line, hpre, hline, hstart, hlength⟩ := Position.exists_line_start pre
  exact offset?_eq_some_iff.mpr ⟨before, line, cs, by rw [hpre, append_assoc], hstart, hlength,
    fun h => hline (dropLast_subset _ h), by rw [hpre]⟩

theorem position_before {o' : Nat} (h : isBoundary text o) (h' : isBoundary text o')
    (hlt : o < o') : ((ofText text).position o).Before ((ofText text).position o') := by
  obtain ⟨pre, cs, rfl, rfl⟩ := isBoundary_iff.mp h
  obtain ⟨pre', cs', hsplit, rfl⟩ := isBoundary_iff.mp h'
  obtain ⟨part, rfl, rfl⟩ := split_of_le hsplit (Nat.le_of_lt hlt)
  have hpart : part ≠ [] := by
    rintro rfl
    simp at hlt
  rw [position_append, hsplit, position_append, Position.after_append]
  exact Position.before_after _ hpart

/-- Where a position leads to, the text is split on its line or past the line feed that ends it. -/
theorem position_of_offset? (h : (ofText text).offset? p = some o) :
    isBoundary text o ∧ ((ofText text).position o = p ∨ PastNewline text p o) := by
  obtain ⟨pre, part, rest, rfl, hpre, hlength, hpart, rfl⟩ := offset?_eq_some_iff.mp h
  rw [← append_assoc]
  refine ⟨isBoundary_iff.mpr ⟨pre ++ part, rest, rfl, rfl⟩, ?_⟩
  have hplain : '\n' ∉ part → (ofText (pre ++ part ++ rest)).position
      (Text.byteSize (pre ++ part)) = p := by
    intro hnone
    rw [position_append, Position.after_append, hpre, Position.after_of_no_newline hnone, hlength]
    simp
  rcases eq_nil_or_concat part with rfl | ⟨body, c, rfl⟩
  · exact .inl (hplain (by simp))
  rw [concat_eq_append] at hpart hlength hplain ⊢
  rw [dropLast_concat] at hpart
  by_cases hc : c = '\n'
  · right
    subst hc
    have hsize : Text.byteSize (pre ++ (body ++ ['\n'])) = Text.byteSize (pre ++ body) + 1 := by
      simp only [byteSize_append, byteSize_cons, byteSize_nil]
      exact (Nat.add_assoc ..).symm
    have hsplit : pre ++ (body ++ ['\n']) ++ rest = pre ++ body ++ '\n' :: rest := by simp
    have hpos : (ofText (pre ++ (body ++ ['\n']) ++ rest)).position (Text.byteSize (pre ++ body)) =
        ⟨p.line, body.length⟩ := by
      rw [hsplit, position_append, Position.after_append, hpre, Position.after_of_no_newline hpart, Nat.zero_add]
    refine ⟨?_, ?_, ?_⟩
    · rw [hsize]
      exact Text.slice?_eq_some.mpr ⟨Nat.le_succ _, pre ++ body, rest, by simp, rfl,
        (Nat.add_sub_cancel_left ..).symm⟩
    · rw [hsize, Nat.add_sub_cancel, hpos]
      simp only [length_append, length_singleton] at hlength
      rw [hlength]
    · rw [position_append, Position.after_append, Position.after_append, hpre, Position.after_of_no_newline hpart]
      rfl
  · exact .inl (hplain (by simp [hpart, Ne.symm hc]))

theorem offset?_pastNewline (h : PastNewline text p o) : (ofText text).offset? p = some o := by
  obtain ⟨-, pre, post, rfl, hpre, hsize⟩ := Text.slice?_eq_some.mp h.newline
  dsimp only at hpre hsize
  obtain ⟨before, line, rfl, hline, hstart, hlength⟩ := Position.exists_line_start pre
  have hpos := position_append (before ++ line) (['\n'] ++ post)
  rw [← append_assoc, hpre] at hpos
  rw [h.column, hpos]
  refine offset?_eq_some_iff.mpr ⟨before, line ++ ['\n'], post, by simp, hstart, by simp [hlength],
    by simpa using hline, ?_⟩
  rw [← append_assoc, byteSize_append]
  omega

end Coordinates

open Coordinates

/-- Offsets and positions are inverse to each other: the position of a boundary leads back to it,
later boundaries have later positions, and a position leads to a boundary just if it is the position
of that boundary or the place past the line feed before it. -/
theorem position_offset_inverse (text : Text) :
    (∀ o, isBoundary text o → (ofText text).offset? ((ofText text).position o) = some o) ∧
    (∀ o o', isBoundary text o → isBoundary text o' → o < o' →
      ((ofText text).position o).Before ((ofText text).position o')) ∧
    ∀ p o, (ofText text).offset? p = some o ↔
      isBoundary text o ∧ ((ofText text).position o = p ∨ PastNewline text p o) := by
  have hinverse : ∀ o, isBoundary text o → (ofText text).offset? ((ofText text).position o) =
      some o := by
    intro o ho
    obtain ⟨pre, cs, rfl, rfl⟩ := isBoundary_iff.mp ho
    rw [position_append]
    exact offset?_position pre cs
  refine ⟨hinverse, fun o o' ho ho' hlt => position_before ho ho' hlt,
    fun p o => ⟨position_of_offset?, ?_⟩⟩
  rintro ⟨ho, rfl | hpast⟩
  · exact hinverse o ho
  · exact offset?_pastNewline hpast

/-- Two lines, of which the first has a character of two bytes: the end of the first line can be
named in two ways. -/
theorem position_offset_inverse_accented :
    isBoundary "é\nx".toList 3 ∧
      (ofText "é\nx".toList).offset? ((ofText "é\nx".toList).position 3) = some 3 ∧
      (ofText "é\nx".toList).position 3 = ⟨2, 0⟩ ∧ (ofText "é\nx".toList).offset? ⟨1, 2⟩ = some 3 ∧
      PastNewline "é\nx".toList ⟨1, 2⟩ 3 := by
  obtain ⟨hinverse, -, hiff⟩ := position_offset_inverse "é\nx".toList
  have hboundary : isBoundary "é\nx".toList 3 := by decide
  have hoffset : (ofText "é\nx".toList).offset? ⟨1, 2⟩ = some 3 := by decide
  have hpos : (ofText "é\nx".toList).position 3 = ⟨2, 0⟩ := by decide
  refine ⟨hboundary, hinverse 3 hboundary, hpos, hoffset, ?_⟩
  refine ((hiff ⟨1, 2⟩ 3).mp hoffset).2.resolve_left ?_
  decide

end Loom
