import Loom.Proofs.Token.Lengths

/-!
Scanning goes by bytes, and never stops inside a character.

A character of ASCII is its own byte, and the bytes of any other character are outside of ASCII,
where no token and no comment ends. So the bytes that a step takes are those of some whole
characters: `step` says of how many.
-/

open List

namespace Loom

/-! The bytes of a text. -/

namespace Text

variable {b c : Char} {cs : Text} {n : Nat}

/-- The bytes of one character. -/
def encode (c : Char) : Text := (String.utf8EncodeChar c).map Char.ofUInt8

theorem bytes_cons (c : Char) (cs : Text) : bytes (c :: cs) = encode c ++ bytes cs := rfl

theorem length_encode (c : Char) : (encode c).length = c.utf8Size := by
  rw [encode, length_map, String.length_utf8EncodeChar]

theorem encode_ascii (h : c.toNat < 128) : encode c = [c] := by
  have hencode : String.utf8EncodeChar c = [UInt8.ofNat c.toNat] := if_pos (Nat.le_of_lt_succ h)
  have hchar : Char.ofUInt8 (UInt8.ofNat c.toNat) = c := by
    refine Char.ext (UInt32.toNat_inj.mp ?_)
    have hcode : c.val.toNat < 128 := h
    show (UInt8.ofNat c.toNat).toUInt32.toNat = c.val.toNat
    simp
    omega
  rw [encode, hencode, map_singleton, hchar]

theorem bytes_cons_ascii (h : c.toNat < 128) (cs : Text) : bytes (c :: cs) = c :: bytes cs := by
  rw [bytes_cons, encode_ascii h, singleton_append]

theorem exists_encode_cons (c : Char) : ∃ b bs, encode c = b :: bs :=
  exists_cons_of_ne_nil (ne_nil_of_length_pos (length_encode c ▸ c.utf8Size_pos))

/-- No byte of a character outside of ASCII is in ASCII. -/
theorem high_of_mem_encode (h : 128 ≤ c.toNat) (hb : b ∈ encode c) : 128 ≤ b.toNat := by
  have hcode : 128 ≤ c.val.toNat := h
  obtain ⟨u, hu, rfl⟩ := mem_map.mp hb
  have hbyte : 128 ≤ u.toNat := by
    simp only [String.utf8EncodeChar] at hu
    split_ifs at hu
    · omega
    all_goals
      simp only [mem_cons, not_mem_nil, or_false] at hu
      rcases hu with rfl | rfl | rfl | rfl <;> simp <;> omega
  exact hbyte

theorem utf8Size_ascii (h : c.toNat < 128) : c.utf8Size = 1 := by
  rw [← length_encode, encode_ascii h, length_singleton]

theorem bytes_ascii {a : Text} (h : ∀ c ∈ a, c.toNat < 128) (rest : Text) :
    bytes (a ++ rest) = a ++ bytes rest := by
  induction a with
  | nil => rfl
  | cons c a ih =>
    rw [forall_mem_cons] at h
    rw [cons_append, bytes_cons_ascii h.1, ih h.2, cons_append]

theorem byteSize_ascii {a : Text} (h : ∀ c ∈ a, c.toNat < 128) : byteSize a = a.length := by
  induction a with
  | nil => rfl
  | cons c a ih =>
    rw [forall_mem_cons] at h
    rw [byteSize_cons, utf8Size_ascii h.1, ih h.2, length_cons, Nat.add_comm]

end Text

namespace Scanner

open Text

variable {p : Char → Bool} {c quote : Char} {cs bs rest : Text} {n : Nat} {f : Text → Nat}

theorem stops_bytes (h : ∀ c ∈ cs.head?, 128 ≤ c.toNat) : Stops isOuter (bytes cs) := by
  cases cs with
  | nil => exact fun _ hb => by cases hb
  | cons c cs =>
    intro b hb
    obtain ⟨d, bs, hencode⟩ := exists_encode_cons c
    rw [bytes_cons, hencode] at hb
    cases hb
    have hhigh := high_of_mem_encode (h c rfl) (hencode ▸ mem_cons_self)
    simp [isOuter, hhigh]

/-- A length that is decided within ASCII counts the same in the bytes of a text, and counts only
characters of ASCII. -/
theorem Local.bytes (hf : Local isOuter f) (cs : Text) :
    f (Text.bytes cs) = f cs ∧ byteSize (cs.take (f cs)) = f cs := by
  obtain ⟨a, rest, rfl, ha, hrest⟩ : ∃ a rest, cs = a ++ rest ∧ (∀ c ∈ a, c.toNat < 128) ∧
      ∀ c ∈ rest.head?, 128 ≤ c.toNat := by
    refine ⟨cs.takeWhile (·.toNat < 128), cs.dropWhile (·.toNat < 128),
      takeWhile_append_dropWhile.symm,
      fun c hc => by simpa using mem_takeWhile_imp hc, fun c hc => ?_⟩
    have hnot := head?_dropWhile_not (fun c : Char => decide (c.toNat < 128)) cs
    rw [hc] at hnot
    simpa using hnot
  have hsame : ∀ {post}, Stops isOuter post → f (a ++ post) = f a := fun hpost => by
    have hclip := Clipped.of_append a [] hpost
    rw [append_nil] at hclip
    exact hf.clipped hclip (hf.bounded a)
  have hcs : f (a ++ rest) = f a := hsame fun c hc => by simp [isOuter, hrest c hc]
  have hle := hf.bounded a
  rw [bytes_ascii ha, hsame (stops_bytes hrest), hcs]
  refine ⟨rfl, ?_⟩
  rw [take_append_of_le_length hle, byteSize_ascii fun c hc => ha c (mem_of_mem_take hc),
    length_take_of_le hle]

theorem startsWith_bytes (hp : Solid isOuter p) (cs : Text) :
    startsWith p (bytes cs) = startsWith p cs := by
  by_cases hhigh : ∀ c ∈ cs.head?, 128 ≤ c.toNat
  · have hcs : Stops isOuter cs := fun c hc => by simp [isOuter, hhigh c hc]
    rw [(stops_bytes hhigh).startsWith hp, hcs.startsWith hp]
  · cases cs with
    | nil => rfl
    | cons c cs =>
      rw [bytes_cons_ascii (by simpa using hhigh)]
      rfl

/-- Bytes that are no escape and end nothing are counted. -/
theorem stringLength?_append (h : ∀ b ∈ bs, b ≠ '\\' ∧ b ≠ quote ∧ b ≠ '\n') :
    stringLength? quote (bs ++ rest) = (stringLength? quote rest).map (· + bs.length) := by
  induction bs with
  | nil => simp
  | cons b bs ih =>
    rw [forall_mem_cons] at h
    obtain ⟨⟨hescape, hquote, hline⟩, hbs⟩ := h
    rw [cons_append, stringLength?.eq_3 _ _ _ fun _ _ he => absurd he hescape, if_neg hquote,
      if_neg (by simp [hline, hescape]), ih hbs, Option.map_map]
    rfl

/-- A string that is read by bytes ends with a whole character: an escape may step into a character,
but nothing ends before the next one. -/
theorem stringLength?_bytes (hquote : quote.toNat < 128) (cs : Text) :
    stringLength? quote (bytes cs) = (stringLength? quote cs).map
      fun n => byteSize (cs.take n) := by
  have hplain : ∀ {c}, 128 ≤ c.toNat → c ≠ '\\' ∧ c ≠ quote ∧ c ≠ '\n' := fun h =>
    ⟨ne_of_high h (by decide), ne_of_high h hquote, ne_of_high h (by decide)⟩
  -- A backslash before the end of the text is one before the end of its bytes.
  have hstuck : ∀ {c : Char} {cs : Text}, (∀ d tail, c = '\\' → cs = d :: tail → False) →
      ∀ d tail, c = '\\' → bytes cs = d :: tail → False := by
    intro c cs hescape d tail hc hbytes
    cases cs with
    | nil => cases hbytes
    | cons d cs => exact hescape d cs hc rfl
  fun_induction stringLength? quote cs with
  | case1 => rfl
  | case2 c cs ih =>
    obtain ⟨b, bs, hencode, hbs⟩ : ∃ b bs, encode c = b :: bs ∧ ∀ b ∈ bs, 128 ≤ b.toNat := by
      by_cases hc : c.toNat < 128
      · exact ⟨c, [], encode_ascii hc, by simp⟩
      · obtain ⟨b, bs, hencode⟩ := exists_encode_cons c
        exact ⟨b, bs, hencode, fun b hb => high_of_mem_encode (not_lt.mp hc) (hencode ▸ mem_cons_of_mem _ hb)⟩
    have hsize : c.utf8Size = bs.length + 1 := by rw [← length_encode, hencode, length_cons]
    rw [bytes_cons_ascii (by decide), bytes_cons, hencode, cons_append, stringLength?,
      stringLength?_append fun b hb => hplain (hbs b hb), ih]
    simp only [Option.map_map, Function.comp_def, take_succ_cons, byteSize_cons, hsize]
    congr 1
    funext n
    rw [utf8Size_ascii (by decide)]
    omega
  | case3 cs hescape =>
    rw [bytes_cons_ascii hquote, stringLength?.eq_3 _ _ _ (hstuck hescape), if_pos rfl]
    simp [utf8Size_ascii hquote]
  | case4 c cs hescape hc hend =>
    have hascii : c.toNat < 128 := by
      rcases by simpa using hend with rfl | rfl <;> decide
    rw [bytes_cons_ascii hascii, stringLength?.eq_3 _ _ _ (hstuck hescape), if_neg hc, if_pos hend]
    rfl
  | case5 c cs _ hc hend ih =>
    have hskip : ∀ b ∈ encode c, b ≠ '\\' ∧ b ≠ quote ∧ b ≠ '\n' := by
      intro b hb
      by_cases hascii : c.toNat < 128
      · rw [encode_ascii hascii, mem_singleton] at hb
        subst hb
        have hend : b ≠ '\n' ∧ b ≠ '\\' := by simpa using hend
        exact ⟨hend.2, hc, hend.1⟩
      · exact hplain (high_of_mem_encode (not_lt.mp hascii) hb)
    rw [bytes_cons, stringLength?_append hskip, ih, length_encode]
    simp only [Option.map_map, Function.comp_def, take_succ_cons, byteSize_cons, Nat.add_comm]

/-! One step, by characters. -/

def identifierLength (cs : Text) : Nat := (cs.takeWhile isIdentifierPart).length

/-- The length of a punctuator; a question mark before a number with a leading point stands
alone. -/
def punctuatorLength? (cs : Text) : Option Nat :=
  (punctuators.find? (·.isPrefixOf cs)).map fun p =>
    if p = "?.".toList && startsWith Char.isDigit (cs.drop 2) then 1 else p.length

/-- A name or a punctuator at the head of a text. -/
def wordStep (c : Char) (cs : Text) : Step :=
  if isIdentifierStart c then
    let n := identifierLength (c :: cs)
    .token (wordKind ((c :: cs).take n)) n
  else
    match punctuatorLength? (c :: cs) with
    | some n => .token .punctuator n
    | none => .fault (.unexpectedCharacter c)

/-- The step at the head of a text that is not a blank or a comment. -/
def tokenStep (c : Char) (cs : Text) : Step :=
  if c = '"' || c = '\'' then
    match stringLength? c cs with
    | some n => .token .string (1 + n)
    | none => .fault .unterminatedString
  else if c.isDigit || (c = '.' && startsWith Char.isDigit cs) then
    .token .numeric (numberLength (c :: cs))
  else if c = '#' && startsWith isIdentifierStart cs then
    .token .privateIdentifier (1 + identifierLength cs)
  else wordStep c cs

/-- What lies ahead, in characters. -/
def step (c : Char) (cs : Text) : Step :=
  if isBlank c then .skip 1
  else if c = '/' && startsWith (· = '/') cs then
    .skip (1 + (cs.takeWhile (· ≠ '\n')).length)
  else if c = '/' && startsWith (· = '*') cs then
    match blockCommentLength? (cs.drop 1) with
    | some n => .skip (2 + n)
    | none => .fault .unterminatedComment
  else tokenStep c cs

/-- The step with its characters counted in bytes. -/
def Step.inBytes (cs : Text) : Step → Step
  | .skip n => .skip (byteSize (cs.take n))
  | .token kind n => .token kind (byteSize (cs.take n))
  | .fault cause => .fault cause

theorem take_length_takeWhile (p : Char → Bool) (cs : Text) :
    cs.take (cs.takeWhile p).length = cs.takeWhile p := by
  conv_lhs => arg 2; rw [← takeWhile_append_dropWhile (p := p) (l := cs)]
  exact take_left

theorem startsWith_eq_true {p : Char → Bool} (h : startsWith p cs) :
    ∃ c rest, cs = c :: rest ∧ p c := by
  cases cs with
  | nil => cases h
  | cons c rest => exact ⟨c, rest, rfl, h⟩

theorem startsWith_cons (p : Char → Bool) (c : Char) (cs : Text) : startsWith p (c :: cs) = p c :=
  rfl

/-- A punctuator is in ASCII, and so is what decides whether it is cut short. -/
theorem wordAhead_inBytes (c : Char) (cs : Text) :
    wordAhead (bytes (c :: cs)) (c :: cs) = (wordStep c cs).inBytes (c :: cs) := by
  rw [wordAhead, wordStep, startsWith_cons]
  split
  · simp only [identifierLength, Step.inBytes, take_length_takeWhile]
  rw [punctuatorLength?]
  cases hfind : punctuators.find? (·.isPrefixOf (c :: cs)) with
  | none => rfl
  | some p =>
    have hascii : ∀ p ∈ punctuators, ∀ c ∈ p, c.toNat < 128 := by
      have hall : punctuators.all (·.all (·.toNat < 128)) = true := by decide
      simpa using hall
    have hlow := hascii p (mem_of_find?_eq_some hfind)
    have hsize := byteSize_ascii hlow
    obtain ⟨post, hpost⟩ : p <+: c :: cs := by simpa using find?_some hfind
    have hdigit : (p = "?.".toList && startsWith Char.isDigit ((bytes (c :: cs)).drop 2)) =
        (p = "?.".toList && startsWith Char.isDigit ((c :: cs).drop 2)) := by
      by_cases hp : p = "?.".toList
      · subst hp
        rw [← hpost, bytes_ascii hlow]
        exact congrArg _ (startsWith_bytes solid_isDigit post)
      · rw [decide_eq_false hp, Bool.false_and, Bool.false_and]
    simp only [Option.map_some, Step.inBytes, hdigit]
    split
    case isTrue hmark =>
      obtain ⟨rfl, -⟩ : p = "?.".toList ∧ _ := by simpa using hmark
      rw [← hpost]
      rfl
    case isFalse => rw [← hpost, take_left]

/-- At a character of ASCII, which is the next byte. -/
theorem tokenAhead_inBytes (h : c.toNat < 128) :
    tokenAhead c (bytes cs) (c :: cs) = (tokenStep c cs).inBytes (c :: cs) := by
  rw [tokenAhead, tokenStep, ← bytes_cons_ascii h, startsWith_bytes solid_isDigit, drop_one,
    tail_cons]
  split
  · rw [stringLength?_bytes h]
    cases stringLength? c cs with
    | none => rfl
    | some n => simp [Step.inBytes, Nat.add_comm 1 n, utf8Size_ascii h]
  split
  · obtain ⟨hsame, hsize⟩ := local_numberLength.bytes (c :: cs)
    rw [hsame, Step.inBytes, hsize]
  split
  · simp [Step.inBytes, identifierLength, Nat.add_comm 1, take_length_takeWhile, utf8Size_ascii h]
  · exact wordAhead_inBytes c cs

/-- The step that is read by bytes takes the bytes of the characters of `step`. -/
theorem ahead_cons (c : Char) (cs : Text) : ahead (c :: cs) = (step c cs).inBytes (c :: cs) := by
  have hpair : ∀ d, ['/', d].isPrefixOf (c :: cs) =
      (decide (c = '/') && startsWith (· = d) cs) := by
    intro d
    cases cs with
    | nil => simp [isPrefixOf, startsWith]
    | cons x cs =>
      rw [Bool.eq_iff_iff]
      simp [isPrefixOf, startsWith]
      grind
  have hline : "//".toList.isPrefixOf (c :: cs) = (decide (c = '/') && startsWith (· = '/') cs) :=
    hpair '/'
  have hblock : "/*".toList.isPrefixOf (c :: cs) = (decide (c = '/') && startsWith (· = '*') cs) :=
    hpair '*'
  rw [ahead, step, hline, hblock]
  by_cases hascii : c.toNat < 128
  · rw [bytes_cons_ascii hascii]
    dsimp only
    split
    · simp [Step.inBytes, utf8Size_ascii hascii]
    split
    case isTrue hslash =>
      obtain ⟨rfl, -⟩ : c = '/' ∧ _ := by simpa using hslash
      simp [Step.inBytes, Nat.add_comm 1, take_length_takeWhile]
    split
    case isTrue hslash =>
      obtain ⟨rfl, hstar⟩ : c = '/' ∧ startsWith (· = '*') cs := by simpa using hslash
      obtain ⟨d, rest, rfl, hd⟩ := startsWith_eq_true hstar
      obtain rfl : d = '*' := by simpa using hd
      show (match blockCommentLength? rest with | some n => _ | none => _) =
        Step.inBytes _ (match blockCommentLength? rest with | some n => _ | none => _)
      cases blockCommentLength? rest with
      | none => rfl
      | some n =>
        simp only [Step.inBytes, Nat.add_comm 2 n, take_succ_cons, byteSize_cons, Step.skip.injEq]
        show 2 + byteSize (rest.take n) = 1 + (1 + byteSize (rest.take n))
        omega
    case isFalse => exact tokenAhead_inBytes hascii
  · obtain ⟨b, bs, hbytes, hb⟩ : ∃ b bs, bytes (c :: cs) = b :: bs ∧ 128 ≤ b.toNat := by
      obtain ⟨b, bs, hencode⟩ := exists_encode_cons c
      exact ⟨b, bs ++ bytes cs, by rw [bytes_cons, hencode, cons_append],
        high_of_mem_encode (not_lt.mp hascii) (hencode ▸ mem_cons_self)⟩
    have hc := not_lt.mp hascii
    rw [hbytes]
    simp [isBlank, tokenAhead, tokenStep, ne_of_high hb, ne_of_high hc, isDigit_of_high hb,
      isDigit_of_high hc, ← hbytes, wordAhead_inBytes]

/-! One turn. -/

variable {atoms later : List Atom} {a : Atom} {coords : Coordinates} {fuel offset : Nat}
  {value : Text}

theorem cut?_append (value rest : Text) :
    cut? (value ++ rest) (byteSize value) = some (value, rest) := by
  have htake : takeBytes? (value ++ rest) (byteSize value) = some value :=
    takeBytes?_eq_some.mpr ⟨rest, rfl, rfl⟩
  have hdrop : dropBytes? (value ++ rest) (byteSize value) = some rest :=
    dropBytes?_eq_some.mpr ⟨value, rfl, rfl⟩
  rw [cut?, htake, hdrop]
  rfl

theorem run_of_atom (hatoms : atoms.dropWhile (·.range.start < offset) = a :: later)
    (hstart : a.range.start = offset)
    (htext : c :: cs = value ++ rest) (hstop : offset + byteSize value = a.range.stop) :
    run coords (fuel + 1) offset (c :: cs) atoms =
      (run coords fuel a.range.stop rest later).bind fun ts =>
        .ok (Token.at coords a.kind (String.ofList value) a.range :: ts) := by
  have hsize : a.range.stop - offset = byteSize value := by omega
  have hrange : (⟨offset, a.range.stop⟩ : Range) = a.range := by rw [← hstart]
  have hnext : next offset (c :: cs) atoms = (.token a.kind (byteSize value), later) := by
    rw [next, hatoms]
    simp only [hstart, ne_eq, not_true_eq_false, if_false, hsize]
    rw [if_neg (by omega)]
  have hcut : cut? (c :: cs) (byteSize value) = some (value, rest) := htext ▸ cut?_append value rest
  rw [run]
  simp only [hnext, hcut, hstop, hrange]
  rfl

/-- One step by characters, and what follows it. -/
def advance (coords : Coordinates) (fuel offset : Nat) (c : Char) (cs : Text) (atoms : List Atom) :
    Except HostError (List Token) :=
  match step c cs with
  | .skip n => run coords fuel (offset + byteSize ((c :: cs).take n)) ((c :: cs).drop n) atoms
  | .token kind n => do
    let taken := (c :: cs).take n
    let stop := offset + byteSize taken
    let ts ← run coords fuel stop ((c :: cs).drop n) atoms
    .ok (Token.at coords kind (String.ofList taken) ⟨offset, stop⟩ :: ts)
  | .fault cause => .error ⟨cause, offset⟩

/-- Where no atom starts, what is cut off are whole characters. -/
theorem run_of_no_atom
    (hatoms : ∀ a ∈ (atoms.dropWhile (·.range.start < offset)).head?, a.range.start ≠ offset) :
    run coords (fuel + 1) offset (c :: cs) atoms =
      advance coords fuel offset c cs (atoms.dropWhile (·.range.start < offset)) := by
  have hnext : next offset (c :: cs) atoms =
      ((step c cs).inBytes (c :: cs), atoms.dropWhile (·.range.start < offset)) := by
    rw [next, ahead_cons]
    cases hdrop : atoms.dropWhile (·.range.start < offset) with
    | nil => rfl
    | cons a later => exact if_pos (hatoms a (by simp [hdrop]))
  have hcut : ∀ n, cut? (c :: cs) (byteSize ((c :: cs).take n)) =
      some ((c :: cs).take n, (c :: cs).drop n) := by
    intro n
    conv_lhs => arg 1; rw [← take_append_drop n (c :: cs)]
    exact cut?_append ..
  rw [run, advance, hnext]
  cases step c cs with
  | skip n => simp only [Step.inBytes, hcut]
  | token kind n => simp only [Step.inBytes, hcut]
  | fault cause => rfl

end Scanner

end Loom
