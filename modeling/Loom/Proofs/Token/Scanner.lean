import Loom.Proofs.Token.Bytes

/-!
Scanning loses nothing.

A text is taken apart from left to right into blanks, comments and tokens, with no character left
out between them. Where an atom starts at the end of a piece, the next piece is the token of the
atom. Each turn takes at least one character or one atom, so the scan ends, at the end of the text
or where no piece can be read.
-/

open List

namespace Loom.Scanner

open Text Scanner

variable {atoms' : List Atom} {a : Atom} {stop fuel : Nat} {outcome : Except HostError (List Token)}

/-- A part of a text that is read at once. -/
inductive Piece where
  | blank (c : Char)
  | lineComment (body : Text)
  | blockComment (body : Text)
  | token (t : Token)

namespace Piece

def text : Piece → Text
  | .blank c => [c]
  | .lineComment body => '/' :: '/' :: body
  | .blockComment body => '/' :: '*' :: (body ++ ['*', '/'])
  | .token t => t.value.toList

def token? : Piece → Option Token
  | .token t => some t
  | _ => none

/-- The piece is right where it stands, at `offset` and with `rest` after it. A line comment runs up
to the end of its line and a block comment up to its first closing. -/
def Fits (coords : Coordinates) (offset : Nat) (rest : Text) : Piece → Prop
  | .blank c => isBlank c
  | .lineComment body => '\n' ∉ body ∧ (rest = [] ∨ rest.head? = some '\n')
  | .blockComment body => ¬ ['*', '/'] <:+: body
  | .token t =>
    t.value ≠ "" ∧ t.range = ⟨offset, offset + byteSize t.value.toList⟩ ∧
      t.loc = coords.location t.range

theorem Fits.text_ne_nil {coords : Coordinates} {offset : Nat} {rest : Text} {p : Piece}
    (h : p.Fits coords offset rest) : p.text ≠ [] := by
  cases p with
  | blank c => simp [text]
  | lineComment body => simp [text]
  | blockComment body => simp [text]
  | token t => simpa [text] using h.1

end Piece

variable {c : Char} {atoms : List Atom} {pieces : List Piece} {offset n : Nat} {p : Piece}
  {rest cs value text : Text} {kind : TokenKind}

/-- The text that pieces make up. -/
def joined (ps : List Piece) : Text := ps.flatMap Piece.text

@[simp] theorem joined_nil : joined [] = [] := rfl

@[simp] theorem joined_cons (p : Piece) (ps : List Piece) :
    joined (p :: ps) = p.text ++ joined ps := rfl

@[simp] theorem joined_append (ps qs : List Piece) : joined (ps ++ qs) = joined ps ++ joined qs :=
  flatMap_append

/-- Pieces in a row from `offset` on, with `rest` after the last one. -/
def Laid (coords : Coordinates) : Nat → List Piece → Text → Prop
  | _, [], _ => True
  | offset, p :: ps, rest =>
    p.Fits coords offset (joined ps ++ rest) ∧ Laid coords (offset + byteSize p.text) ps rest

/-! One step. -/

theorem head_dropWhile_newline (cs : Text) :
    cs.dropWhile (· ≠ '\n') = [] ∨ (cs.dropWhile (· ≠ '\n')).head? = some '\n' := by
  induction cs with
  | nil => exact .inl rfl
  | cons c cs ih =>
    by_cases hc : c = '\n'
    · exact .inr (by simp [hc])
    · simpa [hc] using ih

/-- A block comment ends at its first closing. -/
theorem blockCommentLength?_eq_some (h : blockCommentLength? cs = some n) :
    ∃ body rest, cs = body ++ '*' :: '/' :: rest ∧ n = body.length + 2 ∧
      ¬ ['*', '/'] <:+: body := by
  fun_induction blockCommentLength? cs generalizing n with
  | case1 => cases h
  | case2 rest =>
    cases h
    exact ⟨[], rest, rfl, rfl, by simp⟩
  | case3 c cs hopen ih =>
    obtain ⟨m, hm, rfl⟩ := Option.map_eq_some_iff.mp h
    obtain ⟨body, rest, rfl, rfl, hnot⟩ := ih hm
    refine ⟨c :: body, rest, rfl, by simp, ?_⟩
    rw [infix_cons_iff]
    rintro (hstart | hinside)
    · -- The closing cannot be at the head, where the comment would have ended.
      cases body with
      | nil => simp at hstart
      | cons d body =>
        obtain ⟨rfl, hd⟩ := cons_prefix_cons.mp hstart
        obtain ⟨rfl, -⟩ := cons_prefix_cons.mp hd
        exact hopen _ rfl rfl
    · exact hnot hinside

theorem isIdentifierPart_of_start (h : isIdentifierStart c) : isIdentifierPart c := by
  simp only [isIdentifierStart, isIdentifierPart, Text.Property.isAlphabetic,
    Text.Property.isAlphanumeric, Char.isAlphanum, Bool.or_eq_true, decide_eq_true_eq] at h ⊢
  rcases h with ((h | h) | h) | h
  · simp [h]
  · simp [h]
  · simp [h]
  · split at h
    case isTrue hascii => simp [hascii, h]
    case isFalse hascii => simp [hascii, h]

theorem numberLength_pos (h : c.isDigit ∨ c = '.') : 0 < numberLength (c :: cs) := by
  have hdecimal : 0 < decimalLength (c :: cs) := by
    rw [decimalLength]
    rcases h with h | rfl
    · have hwhole : 0 < ((c :: cs).takeWhile isDigitOrSeparator).length := by
        simp [isDigitOrSeparator, h]
      omega
    · have hwhole : ('.' :: cs).takeWhile isDigitOrSeparator = [] := by simp [isDigitOrSeparator]
      have hfraction : 0 < fractionLength ('.' :: cs) := Nat.zero_lt_one.trans_le (Nat.le_add_right ..)
      rw [hwhole, length_nil, drop_zero]
      omega
  rw [numberLength]
  cases hradix : radixLength? (c :: cs) with
  | none =>
    rw [Option.getD_none]
    omega
  | some n =>
    unfold radixLength? at hradix
    split at hradix
    · split at hradix
      · cases hradix
        rw [Option.getD_some]
        omega
      · cases hradix
    · cases hradix

theorem punctuatorLength?_pos (h : punctuatorLength? cs = some n) : 0 < n := by
  obtain ⟨p, hp, rfl⟩ := Option.map_eq_some_iff.mp h
  have hall : ∀ p ∈ punctuators, 0 < p.length := by decide
  split
  · exact Nat.one_pos
  · exact hall p (mem_of_find?_eq_some hp)

/-- What is skipped is a blank or a whole comment, and a token takes some characters. What cannot be
read is a comment or a string that does not end, or a character that starts nothing. -/
def Step.Sound (c : Char) (cs : Text) : Step → Prop
  | .skip n => ∃ p : Piece, p.token? = none ∧ p.text = (c :: cs).take n ∧
    ∀ coords offset, p.Fits coords offset ((c :: cs).drop n)
  | .token _ n => 0 < n
  | .fault cause => cause ∈ [HostCause.unterminatedComment, .unterminatedString,
    .unexpectedCharacter c]

theorem tokenStep_sound (c : Char) (cs : Text) : (tokenStep c cs).Sound c cs := by
  unfold tokenStep
  split
  case isTrue =>
    split
    · exact Nat.lt_add_right _ Nat.one_pos
    · simp [Step.Sound]
  split
  case isTrue hnumber =>
    refine numberLength_pos ?_
    simp only [Bool.or_eq_true, Bool.and_eq_true, decide_eq_true_eq] at hnumber
    exact hnumber.imp_right And.left
  split
  case isTrue => exact Nat.lt_add_right _ Nat.one_pos
  unfold wordStep
  split
  case isTrue hword => simp [Step.Sound, identifierLength, isIdentifierPart_of_start hword]
  case isFalse =>
    split
    case h_1 n hn => exact punctuatorLength?_pos hn
    case h_2 => simp [Step.Sound]

theorem step_sound (c : Char) (cs : Text) : (step c cs).Sound c cs := by
  unfold step
  split
  case isTrue hblank =>
    exact ⟨.blank c, rfl, rfl, fun _ _ => hblank⟩
  split
  case isTrue hline =>
    obtain ⟨rfl, hslash⟩ : c = '/' ∧ startsWith (· = '/') cs := by simpa using hline
    obtain ⟨d, rest, rfl, hd⟩ := startsWith_eq_true hslash
    obtain rfl : d = '/' := by simpa using hd
    have hlength : 1 + (('/' :: rest).takeWhile (· ≠ '\n')).length = (rest.takeWhile (· ≠ '\n')).length + 2 := by
      simp
      omega
    have hsplit : rest.takeWhile (· ≠ '\n') ++ rest.dropWhile (· ≠ '\n') = rest :=
      takeWhile_append_dropWhile
    have hbody : '\n' ∉ rest.takeWhile (· ≠ '\n') :=
      fun hmem => by simpa using mem_takeWhile_imp hmem
    have hafter := head_dropWhile_newline rest
    rw [hlength]
    generalize rest.takeWhile (· ≠ '\n') = body at hsplit hbody
    generalize rest.dropWhile (· ≠ '\n') = after at hsplit hafter
    subst hsplit
    refine ⟨.lineComment body, rfl, ?_, fun _ _ => ⟨hbody, ?_⟩⟩
    · simp [Piece.text]
    · simpa using hafter
  split
  case isTrue hblock =>
    obtain ⟨rfl, hstar⟩ : c = '/' ∧ startsWith (· = '*') cs := by simpa using hblock
    obtain ⟨d, rest, rfl, hd⟩ := startsWith_eq_true hstar
    obtain rfl : d = '*' := by simpa using hd
    split
    case h_1 m hm =>
      obtain ⟨body, after, hrest, rfl, hnot⟩ := blockCommentLength?_eq_some hm
      obtain rfl : rest = body ++ '*' :: '/' :: after := hrest
      refine ⟨.blockComment body, rfl, ?_, fun _ _ => hnot⟩
      rw [show 2 + (body.length + 2) = (body ++ ['*', '/']).length + 2 by simp; omega]
      have hregroup : body ++ '*' :: '/' :: after = (body ++ ['*', '/']) ++ after := by simp
      rw [hregroup, take_succ_cons, take_succ_cons, take_left, Piece.text]
    case h_2 => exact mem_cons_self
  case isFalse => exact tokenStep_sound c cs

theorem step_token (h : step c cs = .token kind n) : 0 < n := by
  have hsound := step_sound c cs
  rwa [h] at hsound

/-! The whole scan. -/

/-- Atoms that a caller may give for a text: in the order of their starts, none empty, all cut
between characters. -/
structure AtomsOf (text : Text) (atoms : List Atom) : Prop where
  sorted : atoms.Pairwise fun a b => a.range.start ≤ b.range.start
  nonempty : ∀ a ∈ atoms, a.range.start < a.range.stop
  start : ∀ a ∈ atoms, isBoundary text a.range.start
  stop : ∀ a ∈ atoms, isBoundary text a.range.stop

theorem AtomsOf.of_sublist (h : AtomsOf text atoms) (hsub : atoms'.Sublist atoms) :
    AtomsOf text atoms' :=
  ⟨h.sorted.sublist hsub, fun a ha => h.nonempty a (hsub.subset ha),
    fun a ha => h.start a (hsub.subset ha), fun a ha => h.stop a (hsub.subset ha)⟩

/-- Where a piece starts at the start of an atom, the piece is the token of the atom, or of one
before it in the list that starts there too. -/
def TakesAtoms (offset : Nat) (pieces : List Piece) (atoms : List Atom) : Prop :=
  ∀ before a after, atoms = before ++ a :: after → (∀ b ∈ before, b.range.start ≠ a.range.start) →
    ∀ ps p qs, pieces = ps ++ p :: qs → offset + byteSize (joined ps) = a.range.start →
      ∃ t, p = .token t ∧ t.range = a.range ∧ t.kind = a.kind

/-- The atoms that start before the offset do not matter. -/
theorem TakesAtoms.of_dropWhile
    (h : TakesAtoms offset pieces (atoms.dropWhile (·.range.start < offset))) :
    TakesAtoms offset pieces atoms := by
  intro before a after heq hfirst ps p qs hpieces hstart
  refine h (before.dropWhile (·.range.start < offset)) a after ?_ ?_ ps p qs hpieces hstart
  · have hstay : (a :: after).dropWhile (·.range.start < offset) = a :: after :=
      dropWhile_cons_of_neg (by simp; omega)
    rw [heq, dropWhile_append, hstay]
    split
    case isTrue hempty => rw [isEmpty_iff.mp hempty, nil_append]
    case isFalse => rfl
  · exact fun b hb => hfirst b ((dropWhile_sublist _).subset hb)

/-- A piece before those that take the atoms, which all start later. -/
theorem TakesAtoms.cons (h : TakesAtoms (offset + byteSize p.text) pieces atoms)
    (hlater : ∀ a ∈ atoms, offset < a.range.start) : TakesAtoms offset (p :: pieces) atoms := by
  intro before a after heq hfirst ps q qs hpieces hstart
  cases ps with
  | nil =>
    have := hlater a (by simp [heq])
    simp only [joined_nil, byteSize_nil] at hstart
    omega
  | cons p' ps =>
    obtain ⟨rfl, hrest⟩ := List.cons.inj hpieces
    refine h before a after heq hfirst ps q qs hrest ?_
    rw [joined_cons, byteSize_append] at hstart
    omega

/-- The token of the first atom before the pieces that take the others. -/
theorem TakesAtoms.cons_atom {t : Token} (hrange : t.range = a.range) (hkind : t.kind = a.kind)
    (hstart : a.range.start = offset) (htext : t.value.toList ≠ [])
    (h : TakesAtoms (offset + byteSize t.value.toList) pieces atoms) :
    TakesAtoms offset (.token t :: pieces) (a :: atoms) := by
  have hpos := byteSize_pos htext
  intro before b after heq hfirst ps q qs hpieces hplace
  cases before with
  | nil =>
    obtain ⟨rfl, rfl⟩ := List.cons.inj heq
    cases ps with
    | nil =>
      obtain ⟨rfl, rfl⟩ := List.cons.inj hpieces
      exact ⟨t, rfl, hrange, hkind⟩
    | cons p ps =>
      obtain ⟨rfl, -⟩ := List.cons.inj hpieces
      rw [joined_cons, byteSize_append, Piece.text] at hplace
      omega
  | cons a' before =>
    obtain ⟨rfl, hatoms⟩ := List.cons.inj heq
    have hne := hfirst a mem_cons_self
    cases ps with
    | nil =>
      simp only [joined_nil, byteSize_nil] at hplace
      omega
    | cons p ps =>
      obtain ⟨rfl, hrest⟩ := List.cons.inj hpieces
      refine h before b after hatoms (fun x hx => hfirst x (mem_cons_of_mem _ hx)) ps q qs hrest ?_
      rw [joined_cons, byteSize_append, Piece.text] at hplace
      omega

/-- A text from `offset` on is read as pieces, up to `rest`. -/
structure Reads (coords : Coordinates) (offset : Nat) (cs : Text) (atoms : List Atom)
    (pieces : List Piece) (rest : Text) : Prop where
  text : cs = joined pieces ++ rest
  laid : Laid coords offset pieces rest
  atoms : TakesAtoms offset pieces atoms

/-- What comes of the pieces when `rest` is left at `stop`: their tokens when nothing is left, or
the fault there. -/
inductive Ends (pieces : List Piece) (stop : Nat) : Text → Except HostError (List Token) → Prop
  | done : Ends pieces stop [] (.ok (pieces.filterMap Piece.token?))
  | fault {c : Char} {cs : Text} {cause : HostCause} :
    step c cs = .fault cause → Ends pieces stop (c :: cs) (.error ⟨cause, stop⟩)

theorem Ends.skip (hp : p.token? = none) (h : Ends pieces stop rest outcome) :
    Ends (p :: pieces) stop rest outcome := by
  cases h with
  | done =>
    rw [← filterMap_cons_none hp]
    exact .done
  | fault hfault => exact .fault hfault

theorem Ends.token {t : Token} (h : Ends pieces stop rest outcome) :
    Ends (.token t :: pieces) stop rest (outcome.bind fun ts => .ok (t :: ts)) := by
  cases h with
  | done => exact .done
  | fault hfault => exact .fault hfault

/-- The scan of a text that goes on from `offset` reads it as pieces, and has fuel enough. -/
def Scanned (coords : Coordinates) (offset : Nat) (cs : Text) (atoms : List Atom) : Prop :=
  ∃ pieces rest outcome, Reads coords offset cs atoms pieces rest ∧
    Ends pieces (offset + byteSize (joined pieces)) rest outcome ∧
    ∀ fuel, cs.length + atoms.length ≤ fuel → run coords fuel offset cs atoms = outcome

variable {coords : Coordinates}

@[simp] theorem text_token {range : Range} :
    (Piece.token (Token.at coords kind (String.ofList value) range)).text = value :=
  String.toList_ofList

theorem fits_token {range : Range} (hvalue : value ≠ [])
    (hrange : range = ⟨offset, offset + byteSize value⟩) :
    (Piece.token (Token.at coords kind (String.ofList value) range)).Fits coords offset rest := by
  refine ⟨?_, ?_, rfl⟩
  · simpa [Token.at] using hvalue
  · simpa [Token.at] using hrange

/-- One more piece in front, which the scan goes on after. -/
theorem Reads.cons (hfits : p.Fits coords offset cs)
    (h : Reads coords (offset + byteSize p.text) cs atoms pieces rest)
    (hatoms : TakesAtoms offset (p :: pieces) atoms') :
    Reads coords offset (p.text ++ cs) atoms' (p :: pieces) rest where
  text := by rw [h.text, joined_cons, append_assoc]
  laid := ⟨h.text ▸ hfits, h.laid⟩
  atoms := hatoms

theorem stop_cons :
    offset + byteSize (joined (p :: pieces)) = offset + byteSize p.text +
      byteSize (joined pieces) := by
  rw [joined_cons, byteSize_append]
  omega

theorem takesAtoms_nil : TakesAtoms offset [] atoms := by
  intro before a after _ _ ps p qs hpieces
  simp at hpieces

/-- A scan goes on after the piece that one turn reads. -/
theorem Scanned.cons {later : List Atom}
    {f : Except HostError (List Token) → Except HostError (List Token)}
    (h : Scanned coords (offset + byteSize value) rest later) (htext : cs = value ++ rest)
    (hvalue : p.text = value) (hfits : p.Fits coords offset rest) (hsub : later.Sublist atoms)
    (htakes : ∀ {ps}, TakesAtoms (offset + byteSize p.text) ps later →
      TakesAtoms offset (p :: ps) atoms)
    (hends : ∀ {ps stop rest outcome}, Ends ps stop rest outcome →
      Ends (p :: ps) stop rest (f outcome))
    (hrun : ∀ fuel, run coords (fuel + 1) offset cs atoms =
      f (run coords fuel (offset + byteSize value) rest later)) :
    Scanned coords offset cs atoms := by
  subst hvalue
  obtain ⟨pieces, left, outcome, hreads, hended, hran⟩ := h
  refine ⟨p :: pieces, left, f outcome, ?_, ?_, fun fuel hle => ?_⟩
  · rw [htext]
    exact hreads.cons hfits (htakes hreads.atoms)
  · rw [stop_cons]
    exact hends hended
  · have hpos := length_pos_of_ne_nil hfits.text_ne_nil
    have hlength := hsub.length_le
    rw [htext, length_append] at hle
    obtain ⟨fuel, rfl⟩ : ∃ n, fuel = n + 1 := ⟨fuel - 1, by omega⟩
    rw [hrun, hran fuel (by omega)]

/-- The atoms left at an offset where none starts all start later. -/
theorem AtomsOf.after (h : AtomsOf text atoms)
    (hnone : ∀ a ∈ (atoms.dropWhile (·.range.start < offset)).head?, a.range.start ≠ offset) :
    ∀ a ∈ atoms.dropWhile (·.range.start < offset), offset < a.range.start := by
  have hsorted := (h.of_sublist (dropWhile_sublist (·.range.start < offset))).sorted
  have hhead := head?_dropWhile_not (fun a : Atom => decide (a.range.start < offset)) atoms
  cases hdrop : atoms.dropWhile (·.range.start < offset) with
  | nil => simp
  | cons a later =>
    rw [hdrop] at hsorted hhead hnone
    have hne := hnone a rfl
    have hge : offset ≤ a.range.start := by simpa using hhead
    intro b hb
    rcases mem_cons.mp hb with rfl | hb
    · omega
    · have := rel_of_pairwise_cons hsorted hb
      omega

/-- The scan from any place between two characters. -/
theorem scanned {pre : Text} (htext : text = pre ++ cs) (h : AtomsOf text atoms) :
    Scanned coords (byteSize pre) cs atoms := by
  induction hm : cs.length + atoms.length using Nat.strong_induction_on generalizing pre cs
    atoms with
  | _ m ih =>
  cases cs with
  | nil =>
    refine ⟨[], [], .ok [], ⟨rfl, trivial, takesAtoms_nil⟩, .done, fun fuel _ => ?_⟩
    rw [run]
  | cons c cs =>
    have hafter : ∀ {value rest : Text} {later : List Atom}, c :: cs = value ++ rest → value ≠ [] →
        later.Sublist atoms → Scanned coords (byteSize pre + byteSize value) rest later := by
      intro value rest later hsplit hne hsub
      rw [← byteSize_append]
      refine ih _ ?_ ?_ (h.of_sublist hsub) rfl
      · have hpos := length_pos_of_ne_nil hne
        have hlength := hsub.length_le
        rw [hsplit, length_append] at hm
        omega
      · rw [htext, hsplit, append_assoc]
    have hsub : (atoms.dropWhile (·.range.start < byteSize pre)).Sublist atoms :=
      dropWhile_sublist _
    by_cases hatom : ∀ a ∈ (atoms.dropWhile (·.range.start < byteSize pre)).head?,
      a.range.start ≠ byteSize pre
    · have htakes {p : Piece} {ps : List Piece} (hps : TakesAtoms (byteSize pre + byteSize p.text) ps _) :
          TakesAtoms (byteSize pre) (p :: ps) atoms := .of_dropWhile (hps.cons (h.after hatom))
      have hsplit n := (take_append_drop n (c :: cs)).symm
      have hsound := step_sound c cs
      cases hstep : step c cs with
      | skip n =>
        rw [hstep] at hsound
        obtain ⟨p, htoken, hp, hfits⟩ := hsound
        have hfits := hfits coords (byteSize pre)
        refine (hafter (hsplit n) (hp ▸ hfits.text_ne_nil) hsub).cons (hsplit n) hp hfits hsub
          htakes (.skip htoken) fun fuel => ?_
        rw [run_of_no_atom hatom, advance, hstep]
      | token kind n =>
        have hvalue : (c :: cs).take n ≠ [] := by
          obtain ⟨n, rfl⟩ := Nat.exists_eq_succ_of_ne_zero (step_token hstep).ne'
          simp
        have hfits : (Piece.token (Token.at coords kind _ _)).Fits coords (byteSize pre) ((c :: cs).drop n) :=
          fits_token hvalue rfl
        refine (hafter (hsplit n) hvalue hsub).cons (hsplit n) text_token hfits hsub htakes .token fun fuel => ?_
        rw [run_of_no_atom hatom, advance, hstep]
        rfl
      | fault cause =>
        refine ⟨[], c :: cs, .error ⟨cause, byteSize pre⟩, ⟨rfl, trivial, takesAtoms_nil⟩,
          .fault hstep, fun fuel hle => ?_⟩
        rw [length_cons] at hle
        obtain ⟨fuel, rfl⟩ : ∃ n, fuel = n + 1 := ⟨fuel - 1, by omega⟩
        rw [run_of_no_atom hatom, advance, hstep]
    · obtain ⟨a, ha, hstart⟩ : ∃ a ∈ (atoms.dropWhile (·.range.start < byteSize pre)).head?,
          a.range.start = byteSize pre := by simpa using hatom
      obtain ⟨later, hdrop⟩ : ∃ later, atoms.dropWhile (·.range.start < byteSize pre) = a :: later :=
        head?_eq_some_iff.mp ha
      rw [hdrop] at hsub
      have hmem := hsub.subset mem_cons_self
      have hnonempty := h.nonempty a hmem
      -- The end of the atom cuts the text that is left.
      obtain ⟨_, rest, hcut, hend⟩ := isBoundary_iff.mp (h.stop a hmem)
      obtain ⟨value, rfl, hvalue⟩ := split_of_le (htext.symm.trans hcut) (by omega)
      rw [byteSize_append] at hend
      have hne : value ≠ [] := by
        rintro rfl
        rw [byteSize_nil] at hend
        omega
      have hrange : a.range = ⟨byteSize pre, byteSize pre + byteSize value⟩ := by rw [hend, ← hstart]
      have hfits : (Piece.token (Token.at coords a.kind _ _)).Fits coords _ rest := fits_token hne hrange
      have hlater := (sublist_cons_self a later).trans hsub
      refine (hafter hvalue hne hlater).cons hvalue text_token hfits hlater
        (fun hps => .of_dropWhile ?_) .token fun fuel => ?_
      · rw [hdrop]
        exact .cons_atom rfl rfl hstart hfits.text_ne_nil hps
      · rw [run_of_atom hdrop hstart hvalue hend, hend]

/-! What follows for the tokens. -/

variable {t : Token}

/-- A token stands where its range says. -/
theorem Laid.of_mem_token (h : Laid coords offset pieces rest)
    (ht : t ∈ pieces.filterMap Piece.token?) : ∃ ps qs, pieces = ps ++ .token t :: qs ∧
      (Piece.token t).Fits coords (offset + byteSize (joined ps)) [] := by
  induction pieces generalizing offset with
  | nil => simp at ht
  | cons p pieces ih =>
    obtain ⟨hfits, hlaid⟩ := h
    have hrest : t ∈ pieces.filterMap Piece.token? → ∃ ps qs, p :: pieces = ps ++ .token t :: qs ∧
        (Piece.token t).Fits coords (offset + byteSize (joined ps)) [] := by
      intro hmem
      obtain ⟨ps, qs, rfl, hfits⟩ := ih hlaid hmem
      refine ⟨p :: ps, qs, rfl, ?_⟩
      rwa [stop_cons]
    cases p with
    | token u =>
      rcases mem_cons.mp ht with rfl | hmem
      · exact ⟨[], pieces, rfl, hfits⟩
      · exact hrest hmem
    | _ => exact hrest ht

theorem Laid.start_lt_stop (h : Laid coords offset pieces rest)
    (ht : t ∈ pieces.filterMap Piece.token?) :
    offset ≤ t.range.start ∧ t.range.start < t.range.stop := by
  obtain ⟨ps, qs, -, hne, hrange, -⟩ := h.of_mem_token ht
  have hpos : 0 < byteSize t.value.toList := byteSize_pos (by simpa using hne)
  rw [hrange]
  dsimp only
  omega

theorem Laid.pairwise (h : Laid coords offset pieces rest) :
    (pieces.filterMap Piece.token?).Pairwise fun t u => t.range.stop ≤ u.range.start := by
  induction pieces generalizing offset with
  | nil => exact .nil
  | cons p pieces ih =>
    obtain ⟨hfits, hlaid⟩ := h
    cases p with
    | token t =>
      refine pairwise_cons.mpr ⟨fun u hu => ?_, ih hlaid⟩
      obtain ⟨-, hrange, -⟩ := hfits
      rw [hrange]
      exact (hlaid.start_lt_stop hu).1
    | _ => exact ih hlaid

theorem Laid.slice_token (h : Laid coords 0 pieces rest) (ht : t ∈ pieces.filterMap Piece.token?) :
    slice? (joined pieces ++ rest) t.range = some t.value.toList := by
  obtain ⟨ps, qs, rfl, -, hrange, -⟩ := h.of_mem_token ht
  rw [slice?_eq_some, hrange]
  refine ⟨by dsimp only; omega, joined ps, joined qs ++ rest, ?_, by simp, by simp⟩
  simp [Piece.text]

/-- Tokens that do not overlap have different ranges. -/
theorem filter_range_eq {tokens : List Token}
    (hpair : tokens.Pairwise fun t u => t.range.stop ≤ u.range.start)
    (hlt : ∀ t ∈ tokens, t.range.start < t.range.stop) (ht : t ∈ tokens) :
    tokens.filter (·.range = t.range) = [t] := by
  obtain ⟨before, after, rfl⟩ := append_of_mem ht
  obtain ⟨-, hafter, hbefore⟩ := pairwise_append.mp hpair
  have hleft : before.filter (·.range = t.range) = [] := by
    simp only [filter_eq_nil_iff, decide_eq_true_eq]
    intro u hu heq
    have := hbefore u hu t mem_cons_self
    have := hlt u (mem_append_left _ hu)
    rw [heq] at *
    omega
  have hright : after.filter (·.range = t.range) = [] := by
    simp only [filter_eq_nil_iff, decide_eq_true_eq]
    intro u hu heq
    have := rel_of_pairwise_cons hafter hu
    have := hlt u (mem_append_right _ (mem_cons_of_mem _ hu))
    rw [heq] at *
    omega
  rw [filter_append, hleft, filter_cons_of_pos (by simp), hright, nil_append]

/-- The offset is strictly inside one of the pieces. -/
def Inside (pieces : List Piece) (n : Nat) : Prop :=
  ∃ ps p qs, pieces = ps ++ p :: qs ∧ byteSize (joined ps) < n ∧
    n < byteSize (joined ps) + byteSize p.text

/-- Every other offset before the end is the start of a piece. -/
theorem exists_start_of_not_inside (hn : n < byteSize (joined pieces)) (hnot : ¬ Inside pieces n) :
    ∃ ps p qs, pieces = ps ++ p :: qs ∧ byteSize (joined ps) = n := by
  induction pieces generalizing n with
  | nil => simp at hn
  | cons p pieces ih =>
    rcases Nat.eq_zero_or_pos n with rfl | hpos
    · exact ⟨[], p, pieces, rfl, rfl⟩
    · have hle : byteSize p.text ≤ n := by
        refine not_lt.mp fun hlt => hnot ⟨[], p, pieces, rfl, ?_, ?_⟩
        · simpa using hpos
        · simpa using hlt
      rw [joined_cons, byteSize_append] at hn
      obtain ⟨ps, q, qs, rfl, hsize⟩ := ih (n := n - byteSize p.text) (by omega) (by
        rintro ⟨ps, q, qs, rfl, hlt, hlt'⟩
        refine hnot ⟨p :: ps, q, qs, rfl, ?_, ?_⟩ <;> rw [joined_cons, byteSize_append] <;> omega)
      refine ⟨p :: ps, q, qs, rfl, ?_⟩
      rw [joined_cons, byteSize_append]
      omega

end Loom.Scanner

namespace Loom

open Text Scanner

/-- A scan ends, with fuel enough, cuts no character and loses nothing. The tokens are in order,
disjoint and cut from the text, and what lies between them is blanks and comments. An atom that
starts neither inside of a piece nor where an atom before it does is just one token. Where the scan
fails, it is neither out of turns nor inside a character: the text up to there is read in this way,
and what comes next is a comment or a string that does not end, or no token. -/
theorem tokenize_lossless {text : Text} {atoms : List Atom} (h : AtomsOf text atoms) :
    (∀ fuel, text.length + atoms.length ≤ fuel →
      run (.ofText text) fuel 0 text atoms = tokenize (.ofText text) atoms) ∧
    (∀ tokens, tokenize (.ofText text) atoms = .ok tokens →
      tokens.Pairwise (fun t u => t.range.stop ≤ u.range.start) ∧
      (∀ t ∈ tokens, t.range.start < t.range.stop ∧ slice? text t.range = some t.value.toList ∧
        t.loc = (Coordinates.ofText text).location t.range) ∧
      ∃ pieces, text = joined pieces ∧ Laid (.ofText text) 0 pieces [] ∧
        tokens = pieces.filterMap Piece.token? ∧
        ∀ before a after, atoms = before ++ a :: after → (∀ b ∈ before, b.range.start ≠ a.range.start) →
          ¬ Inside pieces a.range.start → ∃ t, tokens.filter (·.range = a.range) = [t] ∧ t.kind = a.kind) ∧
    ∀ e, tokenize (.ofText text) atoms = .error e →
      ∃ pieces c cs, text = joined pieces ++ c :: cs ∧ Laid (.ofText text) 0 pieces (c :: cs) ∧
        ahead (c :: cs) = .fault e.cause ∧ e.offset = byteSize (joined pieces) ∧
        e.cause ∈ [HostCause.unterminatedComment, .unterminatedString, .unexpectedCharacter c] := by
  obtain ⟨pieces, rest, outcome, hreads, hends, hrun⟩ : Scanned (.ofText text) (byteSize []) text
      atoms :=
    scanned rfl h
  have houtcome : tokenize (.ofText text) atoms = outcome := hrun _ le_rfl
  rw [byteSize_nil, Nat.zero_add] at hends
  rw [byteSize_nil] at hreads
  rw [houtcome]
  refine ⟨hrun, fun tokens hok => ?_, fun e herror => ?_⟩
  · subst hok
    cases hends
    have htext : text = joined pieces := by rw [hreads.text, append_nil]
    have hpair := hreads.laid.pairwise
    have hlt := fun t ht => (hreads.laid.start_lt_stop (t := t) ht).2
    refine ⟨hpair, fun t ht => ⟨hlt t ht, ?_, ?_⟩, pieces, htext, hreads.laid, rfl, ?_⟩
    · have hslice := hreads.laid.slice_token ht
      rwa [← hreads.text] at hslice
    · obtain ⟨-, -, -, -, -, hloc⟩ := hreads.laid.of_mem_token ht
      exact hloc
    · intro before a after hatoms hfirst hinside
      have hmem : a ∈ atoms := by simp [hatoms]
      have hbound : a.range.start < byteSize (joined pieces) := by
        have hle := le_byteSize_of_isBoundary (h.stop a hmem)
        have hne := h.nonempty a hmem
        rw [← htext]
        omega
      obtain ⟨ps, p, qs, hpieces, hsize⟩ := exists_start_of_not_inside hbound hinside
      obtain ⟨t, rfl, hrange, hkind⟩ := hreads.atoms before a after hatoms hfirst ps p qs hpieces (by omega)
      refine ⟨t, ?_, hkind⟩
      rw [← hrange]
      exact filter_range_eq hpair hlt (by simp [hpieces, Piece.token?])
  · subst herror
    cases hends with
    | @fault c cs _ hfault =>
      have hsound := step_sound c cs
      rw [hfault] at hsound
      refine ⟨pieces, c, cs, hreads.text, hreads.laid, ?_, rfl, hsound⟩
      rw [ahead_cons, hfault]
      rfl

/-- A comment, and a regular expression given by an atom; the second atom starts where the first one
does. -/
def patternText : Text := "/*é*//b/".toList

def patternAtoms : List Atom := [⟨⟨6, 9⟩, .regularExpression⟩, ⟨⟨6, 7⟩, .template⟩]

theorem tokenize_lossless_pattern :
    AtomsOf patternText patternAtoms ∧ ∃ t, tokenize (.ofText patternText) patternAtoms = .ok [t] ∧
      t.kind = .regularExpression ∧ slice? patternText t.range = some t.value.toList ∧ t.value = "/b/" := by
  have hatoms : AtomsOf patternText patternAtoms := by constructor <;> decide
  have htokens : tokenize (.ofText patternText) patternAtoms =
      .ok [Token.at (.ofText patternText) .regularExpression "/b/" ⟨6, 9⟩] := by
    show run _ 10 0 ('/' :: "*é*//b/".toList) patternAtoms = _
    rw [run_of_no_atom (by decide), advance]
    show run _ 9 6 ('/' :: ['b', '/']) patternAtoms = _
    rw [run_of_atom (a := ⟨⟨6, 9⟩, .regularExpression⟩) rfl rfl (append_nil _).symm rfl, run]
    rfl
  refine ⟨hatoms, _, htokens, rfl, ?_, rfl⟩
  exact (((tokenize_lossless hatoms).2.1 _ htokens).2.1 _ mem_cons_self).2.1

end Loom
