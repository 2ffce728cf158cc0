import Loom.Template.Ranges

/-!
Cutting texts. A slice is found by the text before it, itself and the text after it, so a part that
is copied somewhere else is cut there in the same way.
-/

open List

namespace Loom

variable {pre' cs' : Text} {r : Range}

namespace Text

variable {pre part post cs : Text} {a b n : Nat}

@[simp] theorem byteSize_nil : byteSize [] = 0 := rfl

@[simp] theorem byteSize_cons (c : Char) (cs : Text) :
    byteSize (c :: cs) = c.utf8Size + byteSize cs := rfl

@[simp] theorem byteSize_append (pre post : Text) :
    byteSize (pre ++ post) = byteSize pre + byteSize post := by
  induction pre with
  | nil => simp
  | cons c pre ih => rw [cons_append, byteSize_cons, byteSize_cons, ih, Nat.add_assoc]

theorem byteSize_pos (h : cs ≠ []) : 0 < byteSize cs := by
  cases cs with
  | nil => exact absurd rfl h
  | cons c cs => exact Nat.add_pos_left c.utf8Size_pos _

theorem eq_nil_of_byteSize (h : byteSize cs = 0) : cs = [] := by
  cases cs with
  | nil => rfl
  | cons c cs => exact absurd h (Nat.ne_of_gt (byteSize_pos (cons_ne_nil c cs)))

theorem dropBytes?_zero (cs : Text) : dropBytes? cs 0 = some cs := by
  cases cs <;> rfl

/-- A cut splits the text in two. -/
theorem dropBytes?_eq_some {rest : Text} :
    dropBytes? cs n = some rest ↔ ∃ pre, cs = pre ++ rest ∧ byteSize pre = n := by
  fun_induction dropBytes? cs n with
  | case1 cs =>
    constructor
    · rintro ⟨⟩
      exact ⟨[], rfl, rfl⟩
    · rintro ⟨pre, rfl, hpre⟩
      rw [eq_nil_of_byteSize hpre, nil_append]
  | case2 n =>
    simp only [reduceCtorEq, false_iff]
    rintro ⟨pre, hsplit, hpre⟩
    rw [(append_eq_nil_iff.mp hsplit.symm).1] at hpre
    cases hpre
  | case3 c cs n hlt =>
    simp only [reduceCtorEq, false_iff]
    rintro ⟨pre, hsplit, hpre⟩
    cases pre with
    | nil => cases hpre
    | cons d pre =>
      obtain ⟨rfl, -⟩ := List.cons.inj hsplit
      rw [byteSize_cons] at hpre
      omega
  | case4 c cs n hge ih =>
    rw [ih]
    constructor
    · rintro ⟨pre, rfl, hpre⟩
      exact ⟨c :: pre, rfl, by rw [byteSize_cons, hpre, Nat.add_sub_of_le (Nat.le_of_not_lt hge)]⟩
    · rintro ⟨pre, hsplit, hpre⟩
      cases pre with
      | nil => cases hpre
      | cons d pre =>
        obtain ⟨rfl, rfl⟩ := List.cons.inj hsplit
        exact ⟨pre, rfl, Nat.eq_sub_of_add_eq' hpre⟩

theorem takeBytes?_eq_some {first : Text} :
    takeBytes? cs n = some first ↔ ∃ post, cs = first ++ post ∧ byteSize first = n := by
  fun_induction takeBytes? cs n generalizing first with
  | case1 cs =>
    constructor
    · rintro ⟨⟩
      exact ⟨cs, rfl, rfl⟩
    · rintro ⟨post, -, hsize⟩
      rw [eq_nil_of_byteSize hsize]
  | case2 n =>
    simp only [reduceCtorEq, false_iff]
    rintro ⟨post, hsplit, hsize⟩
    rw [(append_eq_nil_iff.mp hsplit.symm).1] at hsize
    cases hsize
  | case3 c cs n hlt =>
    simp only [reduceCtorEq, false_iff]
    rintro ⟨post, hsplit, hsize⟩
    cases first with
    | nil => cases hsize
    | cons d first =>
      obtain ⟨rfl, -⟩ := List.cons.inj hsplit
      rw [byteSize_cons] at hsize
      omega
  | case4 c cs n hge ih =>
    simp only [Option.map_eq_some_iff, ih]
    constructor
    · rintro ⟨first, ⟨post, rfl, hsize⟩, rfl⟩
      exact ⟨post, rfl, by rw [byteSize_cons, hsize, Nat.add_sub_of_le (Nat.le_of_not_lt hge)]⟩
    · rintro ⟨post, hsplit, hsize⟩
      cases first with
      | nil => cases hsize
      | cons d first =>
        obtain ⟨rfl, rfl⟩ := List.cons.inj hsplit
        exact ⟨first, ⟨post, rfl, Nat.eq_sub_of_add_eq' hsize⟩, rfl⟩

/-- Of two places where a text is split, one is further on. -/
theorem split_of_le (h : pre ++ cs = pre' ++ cs') (hle : byteSize pre ≤ byteSize pre') :
    ∃ part, pre' = pre ++ part ∧ cs = part ++ cs' := by
  rcases append_eq_append_iff.mp h with ⟨part, hpre, hcs⟩ | ⟨part, hpre, hcs⟩
  · exact ⟨part, hpre, hcs⟩
  · rw [hpre, byteSize_append] at hle
    obtain rfl : part = [] := eq_nil_of_byteSize (by omega)
    exact ⟨[], by simpa using hpre.symm, by simpa using hcs.symm⟩

/-- A boundary splits the text. -/
theorem isBoundary_iff : isBoundary cs n ↔ ∃ pre post, cs = pre ++ post ∧ byteSize pre = n := by
  unfold isBoundary
  rw [Option.isSome_iff_exists]
  simp only [dropBytes?_eq_some]
  exact exists_comm

theorem le_byteSize_of_isBoundary (h : isBoundary cs n) : n ≤ byteSize cs := by
  obtain ⟨pre, post, rfl, rfl⟩ := isBoundary_iff.mp h
  rw [byteSize_append]
  exact Nat.le_add_right ..

theorem slice?_eq_some : slice? cs r = some part ↔
    r.start ≤ r.stop ∧ ∃ pre post, cs = pre ++ part ++ post ∧ byteSize pre = r.start ∧
        byteSize part = r.stop - r.start := by
  unfold slice?
  constructor
  · intro h
    split at h
    case isTrue => cases h
    case isFalse hge =>
      obtain ⟨rest, hrest, hpart⟩ := Option.bind_eq_some_iff.mp h
      obtain ⟨pre, rfl, hpre⟩ := dropBytes?_eq_some.mp hrest
      obtain ⟨post, rfl, hsize⟩ := takeBytes?_eq_some.mp hpart
      exact ⟨Nat.le_of_not_lt hge, pre, post, (append_assoc ..).symm, hpre, hsize⟩
  · rintro ⟨hle, pre, post, rfl, hpre, hsize⟩
    rw [if_neg (Nat.not_lt_of_le hle), append_assoc, dropBytes?_eq_some.mpr ⟨pre, rfl, hpre⟩]
    exact takeBytes?_eq_some.mpr ⟨post, rfl, hsize⟩

/-- A range inside a part is cut as it is in the part alone. -/
theorem slice?_inside (pre part post : Text) (hb : b ≤ byteSize part) :
    slice? (pre ++ part ++ post) ⟨byteSize pre + a, byteSize pre + b⟩ = slice? part ⟨a, b⟩ := by
  refine Option.ext fun cs => ?_
  rw [slice?_eq_some, slice?_eq_some]
  dsimp only
  constructor
  · rintro ⟨hle, before, after, hsplit, hbefore, hsize⟩
    simp only [append_assoc] at hsplit
    obtain ⟨left, rfl, hinside⟩ := split_of_le hsplit (by omega)
    rw [byteSize_append] at hbefore
    rw [← append_assoc] at hinside
    obtain ⟨right, hpart, -⟩ := split_of_le hinside.symm (by rw [byteSize_append]; omega)
    exact ⟨by omega, left, right, hpart, by omega, by omega⟩
  · rintro ⟨hle, left, right, rfl, hleft, hsize⟩
    exact ⟨by omega, pre ++ left, right ++ post, by simp, by rw [byteSize_append, hleft], by omega⟩

/-- The same part of a text that stands in two texts. -/
theorem slice?_shared {pre post post' : Text} {r' : Range} (hb : b ≤ byteSize part)
    (hstart : r.start = byteSize pre + a) (hstop : r.stop = byteSize pre + b)
    (hstart' : r'.start = byteSize pre' + a) (hstop' : r'.stop = byteSize pre' + b) :
    slice? (pre ++ part ++ post) r = slice? (pre' ++ part ++ post') r' := by
  cases r
  cases r'
  dsimp only at hstart hstop hstart' hstop'
  rw [hstart, hstop, hstart', hstop', slice?_inside _ _ _ hb, slice?_inside _ _ _ hb]

/-- A longer text is cut as the shorter one at its start. -/
theorem slice?_of_prefix (h : slice? cs r = some part) (hpre : cs <+: cs') :
    slice? cs' r = some part := by
  obtain ⟨added, rfl⟩ := hpre
  obtain ⟨hle, pre, post, rfl, hstart, hsize⟩ := slice?_eq_some.mp h
  refine slice?_eq_some.mpr ⟨hle, pre, post ++ added, ?_, hstart, hsize⟩
  simp only [append_assoc]

/-- Two slices that meet are one slice. -/
theorem slice?_join {c : Nat} {part' : Text} (h : slice? cs ⟨a, b⟩ = some part)
    (h' : slice? cs ⟨b, c⟩ = some part') : slice? cs ⟨a, c⟩ = some (part ++ part') := by
  obtain ⟨hab, pre, post, rfl, hpre, hpart⟩ := slice?_eq_some.mp h
  obtain ⟨hbc, pre', post', hsplit, hpre', hpart'⟩ := slice?_eq_some.mp h'
  dsimp only at hab hpre hpart hbc hpre' hpart'
  rw [append_assoc pre'] at hsplit
  have hsame : byteSize (pre ++ part) = byteSize pre' := by
    rw [byteSize_append]
    omega
  obtain ⟨more, rfl, rfl⟩ := split_of_le hsplit (Nat.le_of_eq hsame)
  obtain rfl : more = [] := eq_nil_of_byteSize (by rw [byteSize_append _ more] at hsame; omega)
  refine slice?_eq_some.mpr ⟨Nat.le_trans hab hbc, pre, post', by simp, hpre, ?_⟩
  rw [byteSize_append]
  dsimp only
  omega

/-- Two boundaries in order cut out a slice. -/
theorem slice?_isSome (hle : r.start ≤ r.stop) (hstart : isBoundary cs r.start)
    (hstop : isBoundary cs r.stop) : ∃ part, slice? cs r = some part := by
  obtain ⟨pre, rest, rfl, hpre⟩ := isBoundary_iff.mp hstart
  obtain ⟨pre', last, hsplit, hpre'⟩ := isBoundary_iff.mp hstop
  obtain ⟨part, rfl, rfl⟩ := split_of_le hsplit (by omega)
  refine ⟨part, slice?_eq_some.mpr ⟨hle, pre, last, (append_assoc ..).symm, hpre, ?_⟩⟩
  rw [byteSize_append] at hpre'
  omega

end Text

end Loom
