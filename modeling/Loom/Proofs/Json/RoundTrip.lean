import Loom.Json.Printer
import Loom.Json.Reader
import Loom.Range
import Mathlib.Data.List.TakeWhile

/-!
Reading JSON text back.

What a writer produces is read back whatever text follows it, as long as a number is not followed by
more of a number. The reader's fuel is the length of the text, and every part takes at least one
character.
-/

open List

namespace Loom.Json

open Printer

variable {d : Char} {j : Json} {rest : List Char}

/-! Strings. -/

/-- The piece that a written character is read as: control characters without a letter are given by
their code. -/
def pieceOf (c : Char) : Reader.Piece :=
  if c.toNat < 0x20 ∧ shortEscape? c = none then .unit c.toNat else .char c

theorem hex4?_control : ∀ n < 0x20,
    Reader.hex4? '0' '0' (hexDigit (n / 16)) (hexDigit (n % 16)) = some n := by
  decide

theorem pieces_char (c : Char) (rest : List Char) :
    Reader.pieces (char c rest) = (Reader.pieces rest).map fun p => (pieceOf c :: p.1, p.2) := by
  unfold char pieceOf
  cases hshort : shortEscape? c with
  | some e =>
    unfold shortEscape? at hshort
    split at hshort <;> cases hshort <;>
      cases hrest : Reader.pieces rest <;> simp [Reader.pieces, Reader.shortEscape?, hrest]
  | none =>
    have hplain : c ≠ '"' ∧ c ≠ '\\' := by
      constructor
      all_goals
        rintro rfl
        cases hshort
    by_cases hcontrol : c.toNat < 0x20
    · have hhex := hex4?_control c.toNat hcontrol
      cases hrest : Reader.pieces rest <;> simp [Reader.pieces, hhex, hcontrol, hrest]
    · cases hrest : Reader.pieces rest <;> simp [Reader.pieces, hplain, hcontrol, hrest]

theorem pieces_foldr_char (s rest : List Char) :
    Reader.pieces (s.foldr Printer.char ('"' :: rest)) = some (s.map pieceOf, rest) := by
  induction s with
  | nil => rfl
  | cons c s ih => rw [List.foldr_cons, pieces_char, ih, Option.map_some, List.map_cons]

/-- A code unit below the surrogates stands for a character, whatever comes next. -/
theorem join_unit {n : Nat} (hn : n < 0x20) (ps : List Reader.Piece) :
    Reader.join (.unit n :: ps) = (Reader.join ps).map (Char.ofNat n :: ·) := by
  have hlead : Reader.isLead n = false := by simp [Reader.isLead]; omega
  have htrail : Reader.isTrail n = false := by simp [Reader.isTrail]; omega
  cases ps with
  | nil => simp [Reader.join, hlead, htrail]
  | cons p ps => cases p <;> simp [Reader.join, hlead, htrail]

theorem join_map_pieceOf (s : List Char) : Reader.join (s.map pieceOf) = some s := by
  induction s with
  | nil => rfl
  | cons c s ih =>
    rw [List.map_cons, pieceOf]
    split
    case isTrue hcontrol => rw [join_unit hcontrol.1, ih, Option.map_some, Char.ofNat_toNat]
    case isFalse => exact congrArg (Option.map (c :: ·)) ih

/-- A written string is read back, after its opening quote. -/
theorem string?_written (s : String) (rest : List Char) :
    Reader.string? (s.toList.foldr char ('"' :: rest)) = some (some s, rest) := by
  simp [Reader.string?, pieces_foldr_char, join_map_pieceOf]

/-! Numbers. -/

/-- What may follow a number: nothing that goes on with it. -/
def EndsNumber (rest : List Char) : Prop :=
  ∀ c ∈ rest.head?, c.isDigit = false ∧ c ≠ '.' ∧ c ≠ 'e' ∧ c ≠ 'E'

theorem endsNumber_cons {c : Char} (hc : c = ',' ∨ c = ']' ∨ c = '}') (rest : List Char) :
    EndsNumber (c :: rest) := by
  rintro d ⟨rfl⟩
  rcases hc with rfl | rfl | rfl <;> decide

theorem toDigits_eq_cons (n : Nat) : ∃ d ds, Nat.toDigits 10 n = d :: ds ∧ d.isDigit := by
  obtain ⟨d, ds, hds⟩ := exists_cons_of_ne_nil (Nat.toDigits_ne_nil (n := n) (b := 10))
  exact ⟨d, ds, hds, Nat.isDigit_of_mem_toDigits (by decide) (by decide) (hds ▸ mem_cons_self)⟩

/-- Only the number zero is written with a zero in front. -/
theorem head_toDigits {n : Nat} {ds : List Char} (h : Nat.toDigits 10 n = '0' :: ds) : n = 0 := by
  have hdigit : ∀ n < 10, n.digitChar = '0' → n = 0 := by decide
  induction n using Nat.strongRecOn generalizing ds with
  | _ n ih =>
    rw [Nat.toDigits_eq_if (by decide)] at h
    split at h
    case isTrue hlt => exact hdigit n hlt (List.cons.inj h).1
    case isFalse hge =>
      obtain ⟨d, ds', hds⟩ := exists_cons_of_ne_nil (Nat.toDigits_ne_nil)
      rw [hds] at h
      rw [(List.cons.inj h).1] at hds
      have := ih (n / 10) (by omega) hds
      omega

theorem digits?_append {ds : List Char} (hds : ∀ c ∈ ds, c.isDigit) (hne : ds ≠ [])
    (hrest : EndsNumber rest) : Reader.digits? (ds ++ rest) = some (ds, rest) := by
  have htake : rest.takeWhile Char.isDigit = [] := by
    cases rest with
    | nil => rfl
    | cons c cs => simp [(hrest c rfl).1]
  have hdrop : rest.dropWhile Char.isDigit = rest := by
    cases rest with
    | nil => rfl
    | cons c cs => simp [(hrest c rfl).1]
  have hempty : ds.isEmpty = false := by simpa using hne
  simp only [Reader.digits?, takeWhile_append_of_pos hds, dropWhile_append_of_pos hds, htake, hdrop,
    append_nil, hempty]
  rfl

theorem integer?_toDigits (n : Nat) (hrest : EndsNumber rest) :
    Reader.integer? (Nat.toDigits 10 n ++ rest) = some (Nat.toDigits 10 n, rest) := by
  have hdigits : ∀ c ∈ Nat.toDigits 10 n, c.isDigit := fun c hc =>
    Nat.isDigit_of_mem_toDigits (by decide) (by decide) hc
  have hread := digits?_append hdigits Nat.toDigits_ne_nil hrest
  obtain ⟨d, ds, hds⟩ := exists_cons_of_ne_nil (Nat.toDigits_ne_nil (n := n))
  by_cases hd : d = '0'
  · subst hd
    obtain rfl := head_toDigits hds
    obtain rfl : ds = [] := (List.cons.inj hds).2.symm
    rw [hds, singleton_append, Reader.integer?]
    cases rest with
    | nil => rfl
    | cons c cs => simp [(hrest c rfl).1]
  · rw [hds] at hread ⊢
    rw [Reader.integer?]
    · exact hread
    · rintro cs hcs
      exact hd (List.cons.inj hcs).1

theorem magnitude?_toDigits (n : Nat) (hrest : EndsNumber rest) :
    Reader.magnitude? (Nat.toDigits 10 n ++ rest) = some (Nat.toDigits 10 n, rest) := by
  have hfraction : Reader.fraction? rest = some ([], rest) := by
    cases rest with
    | nil => rfl
    | cons c cs => simp [Reader.fraction?, (hrest c rfl).2.1]
  have hexponent : Reader.exponent? rest = some ([], rest) := by
    cases rest with
    | nil => rfl
    | cons c cs => simp [Reader.exponent?, (hrest c rfl).2.2]
  simp [Reader.magnitude?, integer?_toDigits n hrest, hfraction, hexponent]

theorem digit_ne {c : Char} (hd : d.isDigit) (hc : c.isDigit = false) : d ≠ c := by
  rintro rfl
  rw [hc] at hd
  cases hd

theorem isBlank_digit (hd : d.isDigit) : Reader.isBlank d = false := by
  simp only [Reader.isBlank, Bool.or_eq_false_iff, decide_eq_false_iff_not]
  exact ⟨⟨⟨digit_ne hd rfl, digit_ne hd rfl⟩, digit_ne hd rfl⟩, digit_ne hd rfl⟩

/-- A digit starts nothing but a number. -/
theorem value?_digit {cs : List Char} (hd : d.isDigit) (fuel : Nat) :
    Reader.value? (fuel + 1) (d :: cs) = (Reader.magnitude? (d :: cs)).map
      fun p => (.number p.1, p.2) := by
  have hskip : Reader.skipBlanks (d :: cs) = d ::
      cs := by simp [Reader.skipBlanks, isBlank_digit hd]
  have hnumber : Reader.number? (d :: cs) = Reader.magnitude? (d :: cs) := by
    rw [Reader.number?]
    intro cs' hcs
    exact digit_ne hd (by decide) (List.cons.inj hcs).1
  rw [Reader.value?, hskip]
  split
  case h_7 => rw [hnumber]
  all_goals
    rename_i heq
    exact absurd (List.cons.inj heq).1 (digit_ne hd (by decide))

/-! Values. -/

/-- The values that documents are written as: their numbers are machine words, and nothing in them
is unreadable. -/
inductive Plain : Json → Prop
  | null : Plain .null
  | bool (b : Bool) : Plain (.bool b)
  | nat {n : Nat} (hn : n < Range.wordModulus) : Plain (.ofNat n)
  | string (s : String) : Plain (.string s)
  | array {items : List Json} (hitems : ∀ x ∈ items, Plain x) : Plain (.array items)
  | object {members : List (String × Json)} (hmembers : ∀ m ∈ members, Plain m.2) :
    Plain (.object members)

/-! Every part takes at least one character. -/

theorem length_le_foldr_char (s rest : List Char) :
    rest.length ≤ (s.foldr Printer.char rest).length := by
  have hchar : ∀ c cs, List.length cs ≤ (Printer.char c cs).length := by
    intro c cs
    unfold Printer.char
    split
    · simp only [length_cons]
      omega
    · split_ifs <;> simp only [length_cons] <;> omega
  induction s with
  | nil => exact le_rfl
  | cons c s ih => exact ih.trans (hchar c _)

theorem length_lt_string (s : String) (rest : List Char) :
    rest.length < (Printer.string s rest).length := by
  have h := length_le_foldr_char s.toList ('"' :: rest)
  simp only [length_cons] at h
  simp only [Printer.string, length_cons]
  omega

theorem length_le_items (xs : List Json)
    (hxs : ∀ x ∈ xs, ∀ rest, List.length rest < (Printer.value x rest).length)
    (rest : List Char) : rest.length ≤ (items xs rest).length := by
  induction xs with
  | nil => exact le_rfl
  | cons x xs ih =>
    have hx := hxs x mem_cons_self (items xs rest)
    have hrest := ih fun y hy => hxs y (mem_cons_of_mem _ hy)
    simp only [items, length_cons]
    omega

theorem length_le_members (ms : List (String × Json))
    (hms : ∀ m ∈ ms, ∀ rest, List.length rest < (Printer.value m.2 rest).length)
    (rest : List Char) : rest.length ≤ (Printer.members ms rest).length := by
  induction ms with
  | nil => exact le_rfl
  | cons m ms ih =>
    have hm := hms m mem_cons_self (Printer.members ms rest)
    have hrest := ih fun y hy => hms y (mem_cons_of_mem _ hy)
    have hkey := length_lt_string m.1 (':' :: Printer.value m.2 (Printer.members ms rest))
    simp only [Printer.members, length_cons] at hkey ⊢
    omega

theorem Plain.length_lt (h : j.Plain) (rest : List Char) :
    rest.length < (Printer.value j rest).length := by
  induction h generalizing rest with
  | null =>
    simp only [Printer.value, length_cons]
    omega
  | bool b =>
    cases b <;> simp only [Printer.value, length_cons] <;> omega
  | @nat n hn =>
    have := length_pos_iff.mpr (Nat.toDigits_ne_nil (n := n) (b := 10))
    simp only [ofNat, Printer.value, length_append]
    omega
  | string s => exact length_lt_string s rest
  | @array items _ ih =>
    cases items with
    | nil =>
      simp only [Printer.value, length_cons]
      omega
    | cons x xs =>
      have hx := ih x mem_cons_self (items xs (']' :: rest))
      have hxs := length_le_items _ (fun y hy => ih y (mem_cons_of_mem _ hy)) (']' :: rest)
      simp only [Printer.value, length_cons] at hxs ⊢
      omega
  | @object members _ ih =>
    cases members with
    | nil =>
      simp only [Printer.value, length_cons]
      omega
    | cons m ms =>
      have hm := ih m mem_cons_self (Printer.members ms ('}' :: rest))
      have hms := length_le_members _ (fun y hy => ih y (mem_cons_of_mem _ hy)) ('}' :: rest)
      have hkey := length_lt_string m.1 (':' :: Printer.value m.2 (Printer.members ms ('}' :: rest)))
      simp only [Printer.value, length_cons] at hms hkey ⊢
      omega

/-- A value starts neither with a blank nor with a closing bracket. -/
theorem Plain.value_eq_cons (h : j.Plain) (rest : List Char) :
    ∃ c t, Printer.value j rest = c :: t ∧ Reader.isBlank c = false ∧ c ≠ ']' := by
  cases h with
  | null => exact ⟨_, _, rfl, rfl, by decide⟩
  | bool b => cases b <;> exact ⟨_, _, rfl, rfl, by decide⟩
  | @nat n hn =>
    obtain ⟨d, ds, hds, hd⟩ := toDigits_eq_cons n
    refine ⟨d, ds ++ rest, ?_, isBlank_digit hd, digit_ne hd rfl⟩
    rw [ofNat, Printer.value, hds, cons_append]
  | string s => exact ⟨_, _, rfl, rfl, by decide⟩
  | @array items _ => cases items <;> exact ⟨_, _, rfl, rfl, by decide⟩
  | @object members _ =>
    cases members with
    | nil => exact ⟨_, _, rfl, rfl, by decide⟩
    | cons m ms => exact ⟨'{', _, by rw [Printer.value], rfl, by decide⟩

/-! Reading values. -/

/-- A value that is read back from its text, whatever follows, with the length of the text as
fuel. -/
def ReadsBack (j : Json) : Prop :=
  ∀ fuel rest, EndsNumber rest → (Printer.value j rest).length ≤ fuel + rest.length →
    Reader.value? fuel (Printer.value j rest) = some (j, rest)

/-- The items of an array, the first one without a comma. -/
theorem items?_written {x : Json} {xs : List Json} (hplain : ∀ y ∈ x :: xs, y.Plain)
    (hback : ∀ y ∈ x :: xs, ReadsBack y) (fuel : Nat) (rest : List Char)
    (hfuel : (Printer.value x (items xs (']' :: rest))).length ≤ fuel + rest.length) :
    Reader.items? fuel (Printer.value x (items xs (']' :: rest))) = some (x :: xs, rest) := by
  induction xs generalizing x fuel with
  | nil =>
    have hlen := (hplain x mem_cons_self).length_lt (']' :: rest)
    simp only [items, length_cons] at hfuel hlen ⊢
    obtain ⟨fuel, rfl⟩ : ∃ f, fuel = f + 1 := ⟨fuel - 1, by omega⟩
    have hx := hback x mem_cons_self fuel (']' :: rest) (endsNumber_cons (by simp) rest)
      (by simp only [length_cons]; omega)
    simp [Reader.items?, hx, Reader.skipBlanks, Reader.isBlank]
  | cons y ys ih =>
    have hlen := (hplain x mem_cons_self).length_lt (items (y :: ys) (']' :: rest))
    have hlen' := (hplain y (by simp)).length_lt (items ys (']' :: rest))
    have hlen'' :=
      length_le_items ys (fun z hz => (hplain z (by simp [hz])).length_lt) (']' :: rest)
    simp only [items, length_cons] at hfuel hlen hlen' hlen'' ⊢
    obtain ⟨fuel, rfl⟩ : ∃ f, fuel = f + 1 := ⟨fuel - 1, by omega⟩
    have hx := hback x mem_cons_self fuel (',' :: Printer.value y (items ys (']' :: rest)))
      (endsNumber_cons (by simp) _) (by simp only [length_cons]; omega)
    have hys := ih (fun z hz => hplain z (mem_cons_of_mem _ hz))
      (fun z hz => hback z (mem_cons_of_mem _ hz)) fuel (by omega)
    simp [Reader.items?, hx, Reader.skipBlanks, Reader.isBlank, hys]

/-- The members of an object, the first one without a comma. -/
theorem members?_written {k : String} {x : Json} {ms : List (String × Json)}
    (hplain : ∀ m ∈ (k, x) :: ms, m.2.Plain) (hback : ∀ m ∈ (k, x) :: ms, ReadsBack m.2)
    (fuel : Nat) (rest : List Char)
    (hfuel : (Printer.string k (':' :: Printer.value x (Printer.members ms ('}' :: rest)))).length ≤
      fuel + rest.length) :
    Reader.members? fuel
      (Printer.string k (':' :: Printer.value x (Printer.members ms ('}' :: rest)))) =
      some (((k, x) :: ms).map fun m => (some m.1, m.2), rest) := by
  induction ms generalizing k x fuel with
  | nil =>
    have hkey := length_lt_string k (':' :: Printer.value x ('}' :: rest))
    have hlen := (hplain (k, x) mem_cons_self).length_lt ('}' :: rest)
    simp only [Printer.members, length_cons] at hfuel hkey hlen ⊢
    obtain ⟨fuel, rfl⟩ : ∃ f, fuel = f + 1 := ⟨fuel - 1, by omega⟩
    have hx := hback (k, x) mem_cons_self fuel ('}' :: rest) (endsNumber_cons (by simp) rest)
      (by simp only [length_cons]; omega)
    simp [Reader.members?, Printer.string, Reader.skipBlanks, Reader.isBlank, string?_written, hx]
  | cons m ms ih =>
    obtain ⟨k', y⟩ := m
    have hkey :=
      length_lt_string k (':' :: Printer.value x (Printer.members ((k', y) :: ms) ('}' :: rest)))
    have hlen :=
      (hplain (k, x) mem_cons_self).length_lt (Printer.members ((k', y) :: ms) ('}' :: rest))
    have hlen' := length_le_members ((k', y) :: ms)
      (fun z hz => (hplain z (mem_cons_of_mem _ hz)).length_lt) ('}' :: rest)
    simp only [Printer.members, length_cons] at hfuel hkey hlen hlen' ⊢
    obtain ⟨fuel, rfl⟩ : ∃ f, fuel = f + 1 := ⟨fuel - 1, by omega⟩
    have hx := hback (k, x) mem_cons_self fuel
      (',' :: Printer.string k' (':' :: Printer.value y (Printer.members ms ('}' :: rest))))
      (endsNumber_cons (by simp) _) (by simp only [length_cons]; omega)
    have hms := ih (fun z hz => hplain z (mem_cons_of_mem _ hz))
      (fun z hz => hback z (mem_cons_of_mem _ hz)) fuel (by omega)
    rw [Reader.members?, Printer.string]
    simp [Reader.skipBlanks, Reader.isBlank, string?_written, hx, hms]

/-- Reading every element of a list, when each one is there. -/
theorem mapM_eq_map {α β : Type} {f : α → Option β} {g : α → β} {xs : List α}
    (h : ∀ x ∈ xs, f x = some (g x)) : xs.mapM f = some (xs.map g) := by
  induction xs with
  | nil => rfl
  | cons x xs ih =>
    rw [forall_mem_cons] at h
    simp [h.1, ih h.2]

theorem objectOf_readable (ms : List (String × Json)) :
    Reader.objectOf (ms.map fun m => (some m.1, m.2)) = .object ms := by
  have hmap : (ms.map fun m => (some m.1, m.2)).mapM
      (fun m : Option String × Json => m.1.map (·, m.2)) = some ms := by
    rw [mapM_map]
    exact (mapM_eq_map fun m _ => rfl).trans (congrArg some (map_id ms))
  rw [Reader.objectOf, hmap]

theorem Plain.readsBack (h : j.Plain) : ReadsBack j := by
  -- A value is not empty, so there is fuel for its first character.
  have hpos : ∀ {j : Json}, j.Plain → ∀ {fuel rest},
      (Printer.value j rest).length ≤ fuel + List.length rest → ∃ f, fuel = f + 1 := by
    intro j hj fuel rest hfuel
    have := hj.length_lt rest
    exact ⟨fuel - 1, by omega⟩
  induction h with
  | null =>
    intro fuel rest _ hfuel
    obtain ⟨fuel, rfl⟩ := hpos .null hfuel
    simp [Reader.value?, Printer.value, Reader.skipBlanks, Reader.isBlank]
  | bool b =>
    intro fuel rest _ hfuel
    obtain ⟨fuel, rfl⟩ := hpos (.bool b) hfuel
    cases b <;> simp [Reader.value?, Printer.value, Reader.skipBlanks, Reader.isBlank]
  | @nat n hn =>
    intro fuel rest hrest hfuel
    obtain ⟨fuel, rfl⟩ := hpos (.nat hn) hfuel
    have hread := magnitude?_toDigits n hrest
    obtain ⟨d, ds, hds, hd⟩ := toDigits_eq_cons n
    rw [ofNat, Printer.value, hds, cons_append, value?_digit hd, ← cons_append, ← hds, hread]
    rfl
  | string s =>
    intro fuel rest _ hfuel
    obtain ⟨fuel, rfl⟩ := hpos (.string s) hfuel
    simp [Reader.value?, Printer.value, Printer.string, Reader.skipBlanks, Reader.isBlank,
      string?_written]
  | @array items hplain ih =>
    intro fuel rest _ hfuel
    obtain ⟨fuel, rfl⟩ := hpos (.array hplain) hfuel
    cases items with
    | nil => simp [Reader.value?, Printer.value, Reader.skipBlanks, Reader.isBlank]
    | cons x xs =>
      simp only [Printer.value, length_cons] at hfuel
      have hitems := items?_written hplain ih fuel rest (by omega)
      obtain ⟨c, t, hfirst, hblank, hclose⟩ :=
        (hplain x mem_cons_self).value_eq_cons (items xs (']' :: rest))
      have hopen : Reader.skipBlanks ('[' :: c :: t) = '[' :: c :: t := rfl
      have hskip : Reader.skipBlanks (c :: t) = c :: t := by simp [Reader.skipBlanks, hblank]
      rw [hfirst] at hitems
      rw [Printer.value, hfirst, Reader.value?, hopen]
      simp [hskip, hclose, hitems]
  | @object members hplain ih =>
    intro fuel rest _ hfuel
    obtain ⟨fuel, rfl⟩ := hpos (.object hplain) hfuel
    cases members with
    | nil => simp [Reader.value?, Printer.value, Reader.skipBlanks, Reader.isBlank]
    | cons m ms =>
      simp only [Printer.value, length_cons] at hfuel
      have hmembers := members?_written hplain ih fuel rest (by omega)
      rw [Printer.string] at hmembers
      simp [Printer.value, Printer.string, Reader.value?, Reader.skipBlanks, Reader.isBlank,
        hmembers, ← objectOf_readable]

/-- A value of machine words, names and texts is what its text stands for. -/
theorem Plain.read?_write (h : j.Plain) : read? j.write = some j := by
  have hread : Reader.value? (j.write.length + 1) j.write = some (j, []) :=
    h.readsBack (j.write.length + 1) [] (fun _ hc => by cases hc) (Nat.le_succ _)
  rw [read?, hread]
  rfl

end Loom.Json
