import Loom.Proofs.Token.Scanner

/-!
Tokens stand for themselves.

The end of a token is decided by its own characters and by what the next character is not. A blank
is none of the characters that could make a token go on. So every length that scanning counts is
counted again in a text that has the same characters up to there and then a blank, and the tokens of
a text are the tokens of any text that puts blanks between them.
-/

open List

namespace Loom.Scanner

open Text Option

variable {p : Char → Bool} {c : Char} {cs ds w rest : Text} {n k : Nat}

/-! Strings and punctuators. -/

/-- A string ends with its closing quote, whatever comes after it. -/
theorem stringLength?_again {quote : Char} (hquote : quote ≠ '\\')
    (h : stringLength? quote cs = some k) :
    k ≤ cs.length ∧ ∀ {n ds}, Clipped isBlank n cs ds → k ≤ n →
      stringLength? quote ds = some k := by
  fun_induction stringLength? quote cs generalizing k with
  | case1 => cases h
  | case2 c cs ih =>
    obtain ⟨m, hm, rfl⟩ := map_eq_some_iff.mp h
    obtain ⟨hle, hagain⟩ := ih hm
    refine ⟨Nat.add_le_add_right hle 2, fun {n ds} hclip hn => ?_⟩
    cases hclip with
    | here => cases hn
    | next hclip =>
      cases hclip with
      | here => omega
      | next hclip => rw [stringLength?, hagain hclip (by omega), map_some]
  | case3 cs =>
    cases h
    refine ⟨Nat.le_add_left .., fun {n ds} hclip hn => ?_⟩
    cases hclip with
    | here => cases hn
    | @next _ _ _ ds hclip =>
      have hescape : ∀ d tail, quote = '\\' → ds = d :: tail → False := fun _ _ he => absurd he hquote
      rw [stringLength?.eq_3 _ _ _ hescape, if_pos rfl]
  | case4 => cases h
  | case5 c cs _ hc hend ih =>
    obtain ⟨m, hm, rfl⟩ := map_eq_some_iff.mp h
    obtain ⟨hle, hagain⟩ := ih hm
    refine ⟨Nat.succ_le_succ hle, fun {n ds} hclip hn => ?_⟩
    cases hclip with
    | here => cases hn
    | @next _ _ _ ds hclip =>
      have hescape : ∀ d tail, c = '\\' → ds = d :: tail → False := fun _ _ he => by simp [he] at hend
      rw [stringLength?.eq_3 _ _ _ hescape, if_neg hc, if_neg hend,
        hagain hclip (Nat.le_of_succ_le_succ hn), map_some]

/-- The first that is found stays the first when fewer would do. -/
theorem find?_of_imp {α : Type} {P Q : α → Bool} {l : List α} {x : α} (h : l.find? P = some x)
    (hx : Q x) (hQP : ∀ y ∈ l, Q y → P y) : l.find? Q = some x := by
  obtain ⟨-, before, after, rfl, hbefore⟩ := find?_eq_some_iff_append.mp h
  refine find?_eq_some_iff_append.mpr ⟨hx, before, after, rfl, fun y hy => ?_⟩
  have hnot := hbefore y hy
  cases hQ : Q y with
  | false => rfl
  | true => simp [hQP y (mem_append_left _ hy) hQ] at hnot

theorem Clipped.find?_punctuators {q : Text} (h : Clipped isBlank n cs ds)
    (hfound : punctuators.find? (·.isPrefixOf cs) = some q) (hn : q.length ≤ n) :
    punctuators.find? (·.isPrefixOf ds) = some q := by
  have hsolid : ∀ q ∈ punctuators, ∀ c ∈ q, isBlank c = false := by
    have hall : punctuators.all (·.all (!isBlank ·)) = true := by decide
    simpa using hall
  have hfits : q <+: cs := by simpa using find?_some hfound
  refine find?_of_imp hfound (by simpa using h.prefix_of_prefix hfits hn) fun word hword hds => ?_
  have hfits : word <+: cs := h.of_prefix (hsolid word hword) (by simpa using hds)
  simpa using hfits

/-- A punctuator is read again. A question mark that stands alone before a number is one too. -/
theorem punctuatorLength?_again (h : punctuatorLength? cs = some n) :
    n ≤ cs.length ∧ ∀ {ds}, Clipped isBlank n cs ds → punctuatorLength? ds = some n := by
  obtain ⟨word, hfound, hlength⟩ := map_eq_some_iff.mp h
  have hfits : word <+: cs := by simpa using find?_some hfound
  have hle := hfits.length_le
  split at hlength
  case isTrue hmark =>
    obtain ⟨rfl, -⟩ : word = "?.".toList ∧ startsWith Char.isDigit (cs.drop 2) := by simpa using hmark
    subst hlength
    refine ⟨le_trans (by decide) hle, fun {ds} hclip => ?_⟩
    obtain ⟨post, rfl⟩ : ['?', '.'] <+: cs := hfits
    cases hclip with
    | next hclip =>
      cases hclip with
      | here hrest =>
        have halone : punctuators.find? (·.isPrefixOf ['?']) = some ['?'] := by decide
        have hfound := (Clipped.of_append ['?'] [] hrest).find?_punctuators halone le_rfl
        rw [singleton_append] at hfound
        rw [punctuatorLength?, hfound]
        rfl
  case isFalse =>
    subst hlength
    refine ⟨hle, fun {ds} hclip => ?_⟩
    have hdigit : (decide (word = "?.".toList) && startsWith Char.isDigit (ds.drop 2)) = false := by
      by_cases hword : word = "?.".toList
      · subst hword
        cases hclip.drop (Nat.le_refl 2) with
        | here hrest => rw [hrest.startsWith (solid_isBlank (by decide)), Bool.and_false]
      · rw [decide_eq_false hword, Bool.false_and]
    rw [punctuatorLength?, hclip.find?_punctuators hfound le_rfl, map_some, hdigit]
    rfl

/-! One step. -/

theorem local_number : Local isBlank numberLength :=
  local_numberLength.mono fun c hc => by simp [isOuter, hc]

theorem two_le_numberLength (h : startsWith Char.isDigit cs) : 2 ≤ numberLength ('.' :: cs) := by
  obtain ⟨d, cs, rfl, hd⟩ := startsWith_eq_true h
  have hwhole : ('.' :: d :: cs).takeWhile isDigitOrSeparator = [] := by simp [isDigitOrSeparator]
  have hfraction : 2 ≤ fractionLength ('.' :: d :: cs) := by
    simp only [fractionLength, takeWhile_cons, isDigitOrSeparator, hd, Bool.true_or, if_true,
      length_cons]
    omega
  have hradix : radixLength? ('.' :: d :: cs) = none := rfl
  rw [numberLength, hradix, getD_none]
  simp only [decimalLength, hwhole, length_nil, drop_zero]
  omega

/-- A test of the next character that fails, fails again. -/
theorem Clipped.not_and_startsWith {b : Bool} (h : Clipped isBlank n cs ds)
    (hp : blanks.all (!p ·) = true)
    (hnot : ¬ (b && Scanner.startsWith p cs)) : ¬ (b && Scanner.startsWith p ds) := by
  rw [Bool.and_eq_true] at hnot ⊢
  exact fun hds => hnot ⟨hds.1, h.of_startsWith (solid_isBlank hp) hds.2⟩

/-- A token is read again where the text is cut off after it. -/
def Again (step : Char → Text → Step) (kind : TokenKind) (n : Nat) (c : Char) (cs : Text) : Prop :=
  n ≤ cs.length ∧ ∀ ds, Clipped isBlank n cs ds → step c ds = .token kind (n + 1)

theorem string_again (hquote : c = '"' || c = '\'') (h : stringLength? c cs = some n) :
    Again tokenStep .string n c cs := by
  have hne : c ≠ '\\' := by
    rintro rfl
    simp at hquote
  obtain ⟨hle, hagain⟩ := stringLength?_again hne h
  refine ⟨hle, fun ds hclip => ?_⟩
  rw [tokenStep, if_pos hquote, hagain hclip le_rfl, Nat.add_comm]

theorem number_again (hquote : ¬ (c = '"' || c = '\''))
    (h : c.isDigit || (c = '.' && startsWith Char.isDigit cs))
    (hn : numberLength (c :: cs) = n + 1) : Again tokenStep .numeric n c cs := by
  have hle := local_number.bounded (c :: cs)
  rw [hn] at hle
  refine ⟨Nat.le_of_succ_le_succ hle, fun ds hclip => ?_⟩
  have hopens : c.isDigit || (c = '.' && startsWith Char.isDigit ds) := by
    rw [Bool.or_eq_true, Bool.and_eq_true, decide_eq_true_eq] at h ⊢
    refine h.imp_right ?_
    rintro ⟨rfl, hdigit⟩
    have htwo := two_le_numberLength hdigit
    rw [hclip.startsWith (by omega)]
    exact ⟨rfl, hdigit⟩
  rw [tokenStep, if_neg hquote, if_pos hopens, local_number.clipped hclip.next hn.le, hn]

theorem local_identifierLength : Local isBlank identifierLength :=
  local_takeWhile (solid_isBlank (by decide))

theorem private_again (h : startsWith isIdentifierStart cs) :
    Again tokenStep .privateIdentifier (identifierLength cs) '#' cs := by
  refine ⟨local_identifierLength.bounded cs, fun ds hclip => ?_⟩
  have hpos : 0 < identifierLength cs := by
    obtain ⟨d, cs, rfl, hd⟩ := startsWith_eq_true h
    simp [identifierLength, isIdentifierPart_of_start hd]
  have hopens : startsWith isIdentifierStart ds := by rwa [hclip.startsWith hpos]
  rw [tokenStep, if_neg (by decide), if_neg (by simp), if_pos (by simpa using hopens),
    local_identifierLength.clipped hclip le_rfl, Nat.add_comm]

/-- The classes that a character does not open, it does not open where the text is cut off
either. -/
theorem tokenStep_of_clipped (hquote : ¬ (c = '"' || c = '\''))
    (hnumber : ¬ (c.isDigit || (c = '.' && startsWith Char.isDigit cs)))
    (hprivate : ¬ (c = '#' && startsWith isIdentifierStart cs)) (h : Clipped isBlank n cs ds) :
    tokenStep c ds = wordStep c ds := by
  rw [Bool.or_eq_true, not_or] at hnumber
  have hnumber' : ¬ (c.isDigit || (c = '.' && startsWith Char.isDigit ds)) := by
    rw [Bool.or_eq_true, not_or]
    exact ⟨hnumber.1, h.not_and_startsWith (by decide) hnumber.2⟩
  refine (if_neg hquote).trans ((if_neg hnumber').trans ?_)
  exact if_neg (h.not_and_startsWith (by decide) hprivate)

theorem wordStep_again {kind : TokenKind} (h : wordStep c cs = .token kind (n + 1)) :
    Again wordStep kind n c cs := by
  unfold wordStep at h
  split at h
  case isTrue hstart =>
    obtain ⟨rfl, hn⟩ := Step.token.injEq .. ▸ h
    have hle := local_identifierLength.bounded (c :: cs)
    rw [hn] at hle
    refine ⟨Nat.le_of_succ_le_succ hle, fun ds hclip => ?_⟩
    have hlength := local_identifierLength.clipped hclip.next hn.le
    simp only [wordStep, if_pos hstart, hlength, hn, hclip.next.take]
  case isFalse hstart =>
  split at h
  case h_1 m hm =>
    obtain ⟨rfl, rfl⟩ := Step.token.injEq .. ▸ h
    obtain ⟨hle, hagain⟩ := punctuatorLength?_again hm
    refine ⟨Nat.le_of_succ_le_succ hle, fun ds hclip => ?_⟩
    rw [wordStep, if_neg hstart, hagain hclip.next]
  case h_2 => cases h

theorem tokenStep_again {kind : TokenKind} (h : tokenStep c cs = .token kind (n + 1)) :
    Again tokenStep kind n c cs := by
  unfold tokenStep at h
  split at h
  case isTrue hquote =>
    split at h
    case h_1 m hm =>
      obtain ⟨rfl, rfl⟩ : TokenKind.string = kind ∧ m = n := by simpa [Nat.add_comm 1] using h
      exact string_again hquote hm
    case h_2 => cases h
  case isFalse hquote =>
  split at h
  case isTrue hnumber =>
    rw [Step.token.injEq] at h
    exact h.1 ▸ number_again hquote hnumber h.2
  case isFalse hnumber =>
  split at h
  case isTrue hprivate =>
    obtain ⟨rfl, rfl⟩ : TokenKind.privateIdentifier = kind ∧ identifierLength cs = n := by
      simpa [Nat.add_comm 1] using h
    rw [Bool.and_eq_true, decide_eq_true_eq] at hprivate
    obtain ⟨rfl, hstart⟩ := hprivate
    exact private_again hstart
  case isFalse hprivate =>
    obtain ⟨hle, hagain⟩ := wordStep_again h
    exact ⟨hle, fun ds hclip => (tokenStep_of_clipped hquote hnumber hprivate hclip).trans
      (hagain ds hclip)⟩

/-- A token does not start a comment, and does not do so again. -/
theorem step_again {kind : TokenKind} (h : step c cs = .token kind (n + 1)) :
    Again step kind n c cs := by
  unfold step at h
  split at h
  case isTrue => cases h
  case isFalse hblank =>
  split at h
  case isTrue => cases h
  case isFalse hline =>
  split at h
  case isTrue => split at h <;> cases h
  case isFalse hblock =>
  obtain ⟨hle, hagain⟩ := tokenStep_again h
  refine ⟨hle, fun ds hclip => ?_⟩
  rw [step, if_neg hblank, if_neg (hclip.not_and_startsWith (by decide) hline),
    if_neg (hclip.not_and_startsWith (by decide) hblock), hagain ds hclip]

/-! The whole scan. -/

/-- The text is at its end or goes on with a blank. -/
def Apart (rest : Text) : Prop := ∀ c ∈ rest.head?, isBlank c

/-- A word that is one token, wherever a blank or nothing comes after it. -/
def Stands (kind : TokenKind) (word : Text) : Prop :=
  ∃ c w, word = c :: w ∧ ∀ rest, Apart rest → step c (w ++ rest) = .token kind word.length

/-- A text that consists of words, with blanks between them and anywhere around them. -/
inductive Respaced : List Text → Text → Prop
  | nil : Respaced [] []
  | blank {c : Char} {words : List Text} {text : Text} :
    isBlank c → Respaced words text → Respaced words (c :: text)
  | word {w : Text} {words : List Text} {text : Text} :
    Apart text → Respaced words text → Respaced (w :: words) (w ++ text)

theorem respaced_intercalate (words : List Text) : Respaced words ([' '].intercalate words) := by
  induction words with
  | nil => exact .nil
  | cons w words ih =>
    cases words with
    | nil =>
      have halone : Respaced [w] (w ++ []) := .word (fun _ hc => by cases hc) .nil
      simpa [List.intercalate] using halone
    | cons w' words =>
      have hapart : Apart ([' '] ++ [' '].intercalate (w' :: words)) := by
        intro c hc
        obtain rfl : ' ' = c := by simpa using hc
        rfl
      exact .word hapart (.blank rfl ih)

section Run

variable {coords : Coordinates} {fuel offset : Nat} {tokens : List Token}

theorem run_step : run coords (fuel + 1) offset (c :: cs) [] = advance coords fuel offset c cs [] :=
  run_of_no_atom (by simp)

theorem run_skip (h : step c cs = .skip n) : run coords (fuel + 1) offset (c :: cs) [] =
    run coords fuel (offset + byteSize ((c :: cs).take n)) ((c :: cs).drop n) [] := by
  rw [run_step, advance, h]

theorem run_token {kind : TokenKind} {w rest : Text}
    (h : step c (w ++ rest) = .token kind (c :: w).length) :
    run coords (fuel + 1) offset (c :: w ++ rest) [] =
      (run coords fuel (offset + byteSize (c :: w)) rest []).map
        (Token.at coords kind (String.ofList (c :: w)) ⟨offset, offset + byteSize (c :: w)⟩ :: ·) := by
  rw [cons_append, run_step, advance, h, ← cons_append]
  dsimp only
  rw [take_left, drop_left]
  cases run coords fuel (offset + byteSize (c :: w)) rest [] <;> rfl

/-- The tokens of a text are words that stand alone. -/
theorem stands_of_run (h : run coords fuel offset cs [] = .ok tokens) :
    ∀ t ∈ tokens, Stands t.kind t.value.toList := by
  induction fuel generalizing offset cs tokens with
  | zero => cases cs <;> simp_all [run]
  | succ fuel ih =>
    cases cs with
    | nil => simp_all [run]
    | cons c cs =>
      cases hstep : step c cs with
      | skip n =>
        rw [run_skip hstep] at h
        exact ih h
      | token kind n =>
        obtain ⟨n, rfl⟩ := Nat.exists_eq_succ_of_ne_zero (step_token hstep).ne'
        obtain ⟨hle, hagain⟩ := step_again hstep
        obtain ⟨w, rest, rfl, rfl⟩ : ∃ w rest, cs = w ++ rest ∧ w.length = n :=
          ⟨cs.take n, cs.drop n, (take_append_drop n cs).symm, length_take_of_le hle⟩
        rw [← cons_append, run_token hstep] at h
        cases hrest : run coords fuel (offset + byteSize (c :: w)) rest [] with
        | error e => rw [hrest] at h; cases h
        | ok later =>
          rw [hrest] at h
          cases h
          rw [forall_mem_cons]
          refine ⟨?_, ih hrest⟩
          rw [show (Token.at coords kind (String.ofList (c :: w)) _).value.toList = c ::
            w from String.toList_ofList]
          exact ⟨c, w, rfl, fun rest' hrest' => hagain _ (.of_append w rest hrest')⟩
      | fault cause =>
        rw [run_step, advance, hstep] at h
        cases h

/-- Words that stand alone are the tokens of every text that puts blanks between them. -/
theorem run_respaced {words : List (TokenKind × Text)} (hwords : ∀ x ∈ words, Stands x.1 x.2)
    (h : Respaced (words.map Prod.snd) cs) (hfuel : cs.length ≤ fuel) :
    ∃ tokens, run coords fuel offset cs [] = .ok tokens ∧
      tokens.map (fun t => (t.kind, t.value.toList)) = words := by
  generalize hsnd : words.map Prod.snd = texts at h
  induction h generalizing words fuel offset with
  | nil =>
    obtain rfl := map_eq_nil_iff.mp hsnd
    exact ⟨[], by cases fuel <;> simp [run], rfl⟩
  | @blank c _ text hblank _ ih =>
    cases fuel with
    | zero => simp at hfuel
    | succ fuel =>
      rw [run_skip (if_pos hblank)]
      exact ih hwords (Nat.le_of_succ_le_succ hfuel) hsnd
  | @word w _ text hapart _ ih =>
    obtain ⟨⟨kind, _⟩, words, rfl, rfl, hlater⟩ := map_eq_cons_iff.mp hsnd
    rw [forall_mem_cons] at hwords
    obtain ⟨⟨c, w, rfl, hstep⟩, hwords⟩ := hwords
    cases fuel with
    | zero => simp at hfuel
    | succ fuel =>
      simp only [length_append, length_cons] at hfuel
      have hfuel : text.length ≤ fuel := by omega
      obtain ⟨tokens, hrun, htokens⟩ := ih hwords hfuel hlater
      rw [run_token (hstep text hapart), hrun]
      refine ⟨_, rfl, ?_⟩
      rw [map_cons, htokens]
      simp [Token.at]

end Run

/-- Scanning a text gives tokens of these kinds and values. -/
def Rescans (text : Text) (tokens : List Token) : Prop :=
  ∃ tokens', tokenize (.ofText text) [] = .ok tokens' ∧
    tokens'.map (fun t => (t.kind, t.value)) = tokens.map fun t => (t.kind, t.value)

theorem rescans_respaced {tokens : List Token} {text : Text}
    (hstands : ∀ t ∈ tokens, Stands t.kind t.value.toList)
    (h : Respaced (tokens.map fun t => t.value.toList) text) : Rescans text tokens := by
  have hwords : ∀ x ∈ tokens.map fun t => (t.kind, t.value.toList), Stands x.1 x.2 := by
    intro x hx
    obtain ⟨t, ht, rfl⟩ := mem_map.mp hx
    exact hstands t ht
  have htexts : (tokens.map fun t => (t.kind, t.value.toList)).map Prod.snd = tokens.map
      fun t => t.value.toList := by
    simp
  obtain ⟨tokens', hrun, hsame⟩ := run_respaced hwords (htexts ▸ h) le_rfl
  refine ⟨tokens', hrun, ?_⟩
  have hstrings := congrArg (List.map fun x : TokenKind × Text => (x.1, String.ofList x.2)) hsame
  simpa [Function.comp_def] using hstrings

end Loom.Scanner

namespace Loom

open Scanner

/-- The tokens of a text without atoms are read again, with the same kinds and values, when they are
joined by single spaces, when each of them is scanned alone, and in every text that has blanks
between them. -/
theorem tokenize_respaced {text : Text} {tokens : List Token}
    (h : tokenize (.ofText text) [] = .ok tokens) :
    Rescans ([' '].intercalate (tokens.map fun t => t.value.toList)) tokens ∧
      (∀ t ∈ tokens, Rescans t.value.toList [t]) ∧
      ∀ text', Respaced (tokens.map fun t => t.value.toList) text' → Rescans text' tokens := by
  have hstands := stands_of_run h
  refine ⟨rescans_respaced hstands (respaced_intercalate _), fun t ht => ?_,
    fun text' => rescans_respaced hstands⟩
  have halone := respaced_intercalate [t.value.toList]
  refine rescans_respaced (by simpa using hstands t ht) ?_
  simpa [List.intercalate] using halone

/-- An exponent that has no digits is a name of its own. -/
theorem tokenize_respaced_exponent :
    ∃ tokens, tokenize (.ofText ['1', '.', 'e', '?', '.', '5']) [] = .ok tokens ∧
      tokens.map (fun t => t.value.toList) = [['1', '.'], ['e'], ['?'], ['.', '5']] ∧
      Rescans ['1', '.', ' ', 'e', ' ', '?', ' ', '.', '5'] tokens := by
  have hnumber : step '1' (['.'] ++ ['e', '?', '.', '5']) = .token .numeric 2 := by decide +kernel
  have hname : step 'e' ([] ++ ['?', '.', '5']) = .token .identifier 1 := by decide +kernel
  have hpunctuator : step '?' ([] ++ ['.', '5']) = .token .punctuator 1 := by decide +kernel
  have hfraction : step '.' (['5'] ++ []) = .token .numeric 2 := by decide +kernel
  have hend : run (.ofText ['1', '.', 'e', '?', '.', '5']) 2 6 [] [] = .ok [] := by simp [run]
  have hrun := (run_token hnumber).trans <| congrArg (Except.map _) <| (run_token hname).trans <|
    congrArg (Except.map _) <| (run_token hpunctuator).trans <| congrArg (Except.map _) <|
    (run_token hfraction).trans <| congrArg (Except.map _) hend
  obtain ⟨tokens, htokens, htexts⟩ : ∃ tokens,
    tokenize (.ofText ['1', '.', 'e', '?', '.', '5']) [] = .ok tokens ∧
      tokens.map (fun t => t.value.toList) = [['1', '.'], ['e'], ['?'], ['.', '5']] :=
    ⟨_, hrun, by simp [Token.at]⟩
  have hjoined := (tokenize_respaced htokens).1
  rw [htexts] at hjoined
  exact ⟨tokens, htokens, htexts, hjoined⟩

end Loom
