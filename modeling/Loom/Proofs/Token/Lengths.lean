import Loom.Proofs.Text
import Loom.Token.Scanner
import Mathlib.Data.List.Infix
import Mathlib.Data.List.TakeWhile

/-!
Lengths that scanning counts are decided by the characters that they count and by what the next one
is not.

A length is counted again in a text that has the same characters up to there and then one that could
not make it go on. For numbers that is a blank or any character outside of ASCII, so that they have
the same length in the bytes of a text.
-/

open List

namespace Loom.Scanner

open Text

variable {sep p : Char → Bool} {c : Char} {cs ds w rest : Text} {n k : Nat} {f g : Text → Nat}

/-! Texts that are cut off at a separator. -/

/-- The text is at its end or goes on with a separator. -/
def Stops (sep : Char → Bool) (rest : Text) : Prop := ∀ c ∈ rest.head?, sep c

/-- The second text has the first `n` characters of the first one, and then ends or goes on with a
separator. -/
inductive Clipped (sep : Char → Bool) : Nat → Text → Text → Prop
  | here {cs rest : Text} : Stops sep rest → Clipped sep 0 cs rest
  | next {n : Nat} {c : Char} {cs ds : Text} :
    Clipped sep n cs ds → Clipped sep (n + 1) (c :: cs) (c :: ds)

/-- A class without separators. -/
def Solid (sep p : Char → Bool) : Prop := ∀ c, sep c → p c = false

/-- The characters that are blanks. -/
def blanks : List Char := [' ', '\t', '\n', '\x0c', '\r']

theorem solid_isBlank (h : blanks.all (!p ·) = true) : Solid isBlank p := by
  intro c hc
  have hmem : c ∈ blanks := by simpa [isBlank, or_assoc, blanks] using hc
  exact Bool.not_eq_true' _ ▸ all_eq_true.mp h c hmem

theorem Stops.startsWith (h : Stops sep rest) (hp : Solid sep p) : startsWith p rest = false := by
  cases rest with
  | nil => rfl
  | cons c rest => exact hp c (h c rfl)

theorem Stops.takeWhile (h : Stops sep rest) (hp : Solid sep p) : rest.takeWhile p = [] := by
  cases rest with
  | nil => rfl
  | cons c rest => exact takeWhile_cons_of_neg (by simp [hp c (h c rfl)])

namespace Clipped

theorem of_append (w post : Text) (h : Stops sep rest) :
    Clipped sep w.length (w ++ post) (w ++ rest) := by
  induction w with
  | nil => exact .here h
  | cons c w ih => exact .next ih

section

variable (h : Clipped sep n cs ds)

include h

theorem drop (hk : k ≤ n) : Clipped sep (n - k) (cs.drop k) (ds.drop k) := by
  induction h generalizing k with
  | here hrest =>
    obtain rfl := Nat.le_zero.mp hk
    exact .here hrest
  | next h ih =>
    cases k with
    | zero => exact .next h
    | succ k =>
      rw [Nat.add_sub_add_right]
      exact ih (Nat.le_of_succ_le_succ hk)

theorem take : ds.take n = cs.take n := by
  induction h with
  | here => rfl
  | next h ih => rw [take_succ_cons, take_succ_cons, ih]

theorem startsWith (hn : 0 < n) : Scanner.startsWith p ds = Scanner.startsWith p cs := by
  cases h with
  | here => cases hn
  | next => rfl

/-- A test of the next character that succeeds there succeeds here. -/
theorem of_startsWith (hp : Solid sep p) (hds : Scanner.startsWith p ds) :
    Scanner.startsWith p cs := by
  cases h with
  | here hrest =>
    rw [hrest.startsWith hp] at hds
    cases hds
  | next => exact hds

theorem takeWhile (hp : Solid sep p) (hn : (cs.takeWhile p).length ≤ n) :
    ds.takeWhile p = cs.takeWhile p := by
  induction h with
  | here hrest => rw [hrest.takeWhile hp, eq_nil_of_length_eq_zero (Nat.le_zero.mp hn)]
  | @next n c cs ds h ih =>
    rw [takeWhile_cons] at hn ⊢
    rw [takeWhile_cons]
    split
    case isTrue hc =>
      rw [if_pos hc] at hn
      rw [ih (Nat.le_of_succ_le_succ hn)]
    case isFalse => rfl

theorem prefix_of_prefix (hw : w <+: cs) (hn : w.length ≤ n) : w <+: ds := by
  induction h generalizing w with
  | here => simp [eq_nil_of_length_eq_zero (Nat.le_zero.mp hn)]
  | next h ih =>
    cases w with
    | nil => exact nil_prefix
    | cons d w =>
      rw [cons_prefix_cons] at hw ⊢
      exact ⟨hw.1, ih hw.2 (Nat.le_of_succ_le_succ hn)⟩

/-- A word without separators does not reach over one. -/
theorem of_prefix (hsep : ∀ c ∈ w, sep c = false) (hw : w <+: ds) : w <+: cs := by
  induction h generalizing w with
  | here hrest =>
    cases w with
    | nil => exact nil_prefix
    | cons d w =>
      obtain ⟨post, rfl⟩ := hw
      have hd := hrest d rfl
      rw [hsep d (by simp)] at hd
      cases hd
  | next h ih =>
    cases w with
    | nil => exact nil_prefix
    | cons d w =>
      rw [cons_prefix_cons] at hw ⊢
      exact ⟨hw.1, ih (fun c hc => hsep c (mem_cons_of_mem _ hc)) hw.2⟩

end

end Clipped

/-! Lengths. -/

/-- A length counts characters of the text, and counts them again where the text is cut off after
them. -/
structure Local (sep : Char → Bool) (f : Text → Nat) : Prop where
  bounded : ∀ cs, f cs ≤ cs.length
  clipped : ∀ {n cs ds}, Clipped sep n cs ds → f cs ≤ n → f ds = f cs

theorem local_takeWhile (hp : Solid sep p) : Local sep fun cs => (cs.takeWhile p).length where
  bounded := fun cs => ((takeWhile_sublist p).length_le : _ ≤ cs.length)
  clipped := fun h hn => congrArg List.length (h.takeWhile hp hn)

theorem Local.mono {sep' : Char → Bool} (hsep : ∀ c, sep c → sep' c) (hf : Local sep' f) :
    Local sep f where
  bounded := hf.bounded
  clipped := fun {n cs ds} h hn => by
    refine hf.clipped (n := n) ?_ hn
    clear hn
    induction h with
    | here hrest => exact .here fun c hc => hsep c (hrest c hc)
    | next _ ih => exact .next ih

/-- One length after the other. -/
theorem Local.append (hf : Local sep f) (hg : Local sep g) :
    Local sep fun cs => f cs + g (cs.drop (f cs)) where
  bounded := fun cs => by
    have hle := hf.bounded cs
    have hle' := hg.bounded (cs.drop (f cs))
    rw [length_drop] at hle'
    omega
  clipped := fun {n cs ds} h hn => by
    have hfirst := hf.clipped h ((Nat.le_add_right ..).trans hn)
    rw [hfirst, hg.clipped (h.drop (by omega)) (by omega)]

/-- A length that depends on the first character. -/
theorem Local.of_cons (hnil : f [] = 0) (hbounded : ∀ c cs, f (c :: cs) ≤ cs.length + 1)
    (hsep : ∀ c cs, sep c → f (c :: cs) = 0)
    (hcons : ∀ {n c cs ds}, Clipped sep n cs ds → f (c :: cs) ≤ n + 1 → f (c :: ds) = f (c :: cs)) :
    Local sep f where
  bounded := fun cs => by
    cases cs with
    | nil => exact hnil.le
    | cons c cs => exact hbounded c cs
  clipped := fun {n cs ds} h hn => by
    cases h with
    | here hrest =>
      rw [Nat.le_zero.mp hn]
      cases ds with
      | nil => exact hnil
      | cons c ds => exact hsep c ds (hrest c rfl)
    | next h => exact hcons h hn

/-- Nothing unless the first character is of a class. -/
theorem Local.opened (hg : Local sep g) (hp : Solid sep p) (hnil : f [] = 0)
    (hcons : ∀ c cs, f (c :: cs) = if p c then g cs + 1 else 0) : Local sep f := by
  refine .of_cons hnil (fun c cs => ?_) (fun c cs hc => ?_) fun {n c cs ds} h hn => ?_
  · rw [hcons]
    split
    · exact Nat.succ_le_succ (hg.bounded cs)
    · exact Nat.zero_le _
  · rw [hcons, hp c hc]
    rfl
  · rw [hcons] at hn
    rw [hcons, hcons]
    split
    case isTrue hc =>
      rw [if_pos hc] at hn
      rw [hg.clipped h (Nat.le_of_succ_le_succ hn)]
    case isFalse => rfl

theorem local_zero : Local sep fun _ => 0 := ⟨fun _ => Nat.zero_le _, fun _ _ => rfl⟩

/-! Numbers. None of their characters is a blank or outside of ASCII. -/

/-- A blank, or a character outside of ASCII. -/
def isOuter (c : Char) : Bool := isBlank c || 128 ≤ c.toNat

theorem solid_isOuter (h : blanks.all (!p ·) = true)
    (hhigh : ∀ c : Char, 128 ≤ c.toNat → p c = false) : Solid isOuter p := by
  intro c hc
  rcases (Bool.or_eq_true _ _).mp hc with hblank | hout
  · exact solid_isBlank h c hblank
  · exact hhigh c (of_decide_eq_true hout)

theorem ne_of_high {d : Char} (h : 128 ≤ c.toNat) (hd : d.toNat < 128) : c ≠ d := by
  rintro rfl
  omega

theorem isDigit_of_high (h : 128 ≤ c.toNat) : c.isDigit = false := by
  have hlt : 57 < c.val := UInt32.lt_iff_toNat_lt.mpr (lt_of_lt_of_le (by decide) h)
  simp [Char.isDigit, hlt]

theorem isHexDigit_of_high (h : 128 ≤ c.toNat) : isHexDigit c = false := by
  have hlt : ∀ d : Char, d.toNat < 128 → ¬ c ≤ d := fun d hd hle =>
    (hd.trans_le h).not_ge (UInt32.le_iff_toNat_le.mp hle)
  simp [isHexDigit, isDigit_of_high h, hlt]

theorem local_wholeDigits : Local isOuter fun cs => (cs.takeWhile isDigitOrSeparator).length :=
  local_takeWhile
    (solid_isOuter (by decide) fun c h => by simp [isDigitOrSeparator, isDigit_of_high h,
      ne_of_high h])

theorem local_fractionLength : Local isOuter fractionLength := by
  refine local_wholeDigits.opened (p := (· = '.')) (solid_isOuter (by decide) fun c h => ?_) rfl
    fun c cs => ?_
  · simp [ne_of_high h]
  unfold fractionLength
  split <;> simp_all [Nat.add_comm]

theorem local_bigintLength : Local isOuter bigintLength := by
  refine local_zero.opened (p := (· = 'n')) (solid_isOuter (by decide) fun c h => ?_) rfl
    fun c cs => ?_
  · simp [ne_of_high h]
  unfold bigintLength
  split <;> simp_all

/-- The length of the sign of an exponent. -/
def signLength (cs : Text) : Nat := if startsWith (fun c => c = '+' || c = '-') cs then 1 else 0

theorem solid_sign : Solid isOuter fun c => c = '+' || c = '-' :=
  solid_isOuter (by decide) fun c h => by simp [ne_of_high h]

theorem solid_isDigit : Solid isOuter Char.isDigit :=
  solid_isOuter (by decide) fun _ => isDigit_of_high

theorem local_signLength : Local isOuter signLength :=
  local_zero.opened solid_sign rfl fun _ _ => rfl

/-- The digits of an exponent, after its letter and its sign. -/
def exponentDigits (cs : Text) : Nat := ((cs.drop (signLength cs)).takeWhile Char.isDigit).length

theorem exponentLength_cons (e : Char) (cs : Text) :
    exponentLength (e :: cs) = if e = 'e' || e = 'E' then
      if exponentDigits cs = 0 then 0 else 1 + signLength cs + exponentDigits cs else 0 := rfl

theorem local_exponentLength : Local isOuter exponentLength := by
  have hdigits : Local isOuter fun cs => (cs.takeWhile Char.isDigit).length :=
    local_takeWhile solid_isDigit
  refine .of_cons rfl (fun e cs => ?_) (fun e cs he => if_neg ?_) fun {n e cs ds} h hn => ?_
  · have hle : signLength cs + exponentDigits cs ≤ cs.length :=
      (local_signLength.append hdigits).bounded cs
    rw [exponentLength_cons]
    split
    · split <;> omega
    · exact Nat.zero_le _
  · have hsolid : Solid isOuter fun c => c = 'e' || c = 'E' :=
      solid_isOuter (by decide) fun c h => by simp [ne_of_high h]
    simpa using hsolid e he
  · rw [exponentLength_cons] at hn ⊢
    rw [exponentLength_cons]
    split
    case isFalse => rfl
    case isTrue he =>
    rw [if_pos he] at hn
    by_cases hle : signLength cs ≤ n
    · have hsign := local_signLength.clipped h hle
      have hsame : exponentDigits ds = exponentDigits cs := by
        rw [exponentDigits, hsign]
        refine hdigits.clipped (h.drop hle) ?_
        rw [← exponentDigits]
        split at hn <;> omega
      rw [hsame, hsign]
    · -- The sign is cut off, so no digits follow it.
      have hone : signLength cs ≤ 1 := by
        unfold signLength
        split <;> omega
      obtain rfl : n = 0 := by omega
      cases h with
      | here hrest =>
        have hnone : exponentDigits ds = 0 := by
          rw [exponentDigits, signLength, hrest.startsWith solid_sign, if_neg (by decide),
            drop_zero, hrest.takeWhile solid_isDigit, length_nil]
        have hnone' : exponentDigits cs = 0 := by split at hn <;> omega
        rw [if_pos hnone, if_pos hnone']

/-- A decimal number: digits, a fraction and an exponent. -/
theorem local_decimalLength : Local isOuter decimalLength :=
  (local_wholeDigits.append local_fractionLength).append local_exponentLength

/-- The length of a number in another base after its zero. -/
def baseLength : Text → Nat
  | [] => 0
  | x :: cs =>
    if x = 'x' || x = 'X' || x = 'o' || x = 'O' || x = 'b' || x = 'B' then
      (cs.takeWhile fun c => isHexDigit c || c = '_').length + 1
    else 0

theorem local_baseLength : Local isOuter baseLength := by
  have hdigits : Local isOuter fun cs => (cs.takeWhile fun c => isHexDigit c || c = '_').length :=
    local_takeWhile
      (solid_isOuter (by decide) fun c h => by simp [isHexDigit_of_high h, ne_of_high h])
  exact hdigits.opened (solid_isOuter (by decide) fun c h => by simp [ne_of_high h]) rfl
    fun _ _ => rfl

theorem radixLength?_cons :
    radixLength? (c :: cs) = if c = '0' ∧ 0 < baseLength cs then some (baseLength cs + 1)
      else none := by
  unfold radixLength?
  split
  case h_1 x hex heq =>
    obtain ⟨rfl, rfl⟩ := List.cons.inj heq
    simp only [baseLength, true_and]
    split
    · rw [if_pos (Nat.succ_pos _), Nat.add_comm]
    · rfl
  case h_2 hne =>
    rw [if_neg]
    rintro ⟨rfl, hpos⟩
    cases cs with
    | nil => cases hpos
    | cons x hex => exact hne x hex rfl

theorem local_wholeLength : Local isOuter fun cs => (radixLength? cs).getD (decimalLength cs) := by
  refine .of_cons rfl (fun c cs => ?_) (fun c cs hc => ?_) fun {n c cs ds} h hn => ?_
  · rw [radixLength?_cons]
    split
    · exact Nat.succ_le_succ (local_baseLength.bounded cs)
    · exact local_decimalLength.bounded (c :: cs)
  · have hne : ¬ (c = '0' ∧ 0 < baseLength cs) := by
      rintro ⟨rfl, -⟩
      cases hc
    rw [radixLength?_cons, if_neg hne]
    have hclip : Clipped isOuter 0 [] (c :: cs) := .here fun d hd => Option.mem_some.mp hd ▸ hc
    exact local_decimalLength.clipped hclip le_rfl
  · by_cases hbase : c = '0' ∧ 0 < baseLength cs
    · rw [radixLength?_cons, if_pos hbase] at hn
      have hsame := local_baseLength.clipped h (Nat.le_of_succ_le_succ hn)
      simp only [radixLength?_cons, hsame, if_pos hbase, Option.getD_some]
    · have hbase' : ¬ (c = '0' ∧ 0 < baseLength ds) := by
        rintro ⟨hc, hpos⟩
        have hzero : baseLength cs = 0 := Nat.eq_zero_of_not_pos fun hpos => hbase ⟨hc, hpos⟩
        rw [local_baseLength.clipped h (hzero ▸ Nat.zero_le _), hzero] at hpos
        cases hpos
      rw [radixLength?_cons, if_neg hbase] at hn
      rw [radixLength?_cons, if_neg hbase', radixLength?_cons, if_neg hbase]
      exact local_decimalLength.clipped h.next hn

theorem local_numberLength : Local isOuter numberLength :=
  local_wholeLength.append local_bigintLength

end Loom.Scanner
