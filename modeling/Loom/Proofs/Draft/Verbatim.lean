import Loom.Proofs.Draft.Mapping
import Loom.Proofs.Draft.Projection

/-!
Copied text on its way back to the source.

A range inside the text of one copy goes to the range it was copied from, which holds the same text.
The exception is a range that starts at a seam, where two copies meet in the text and have source
left out between them. The place belongs to both copies, and the earlier one answers.
-/

open List

namespace Loom

open Text TextDraft Breakpoint

variable {r : Range} {d : TextDraft} {offset : Nat}

namespace VirtualText.Tiled

variable {t : VirtualText} {source : Text} {pieces : List Piece} {b c : Breakpoint} {n : Nat}

variable (h : t.Tiled source pieces)

include h

theorem before_breakpoints : t.breakpoints.Pairwise Breakpoint.Before := by
  rw [← h.breakpoints]
  refine h.row.ordered.filterMap _ fun p q hbefore x hx y hy => ?_
  rw [Piece.copied?_eq_some] at hx hy
  subst hx hy
  exact hbefore.1

section

variable (hb : .copied b ∈ pieces)

include hb

/-- Where a copied part ends it answers, also when the next one starts there. -/
theorem mapCopied_stop : t.mapCopied b.stop = some (b.source + b.length) := by
  have hpos : b.generated < b.stop := (h.row.tiles.bounds.2 _ hb).1
  obtain ⟨a, ha⟩ := h.mapCopied_isSome hb hpos.le le_rfl
  obtain ⟨x, hfind, rfl⟩ := Option.map_eq_some_iff.mp ha
  obtain ⟨htest, init, rest, hsplit, hinit⟩ := find?_eq_some_iff_append.mp hfind
  simp only [Bool.and_eq_true, decide_eq_true_eq] at htest
  have hmem : b ∈ init ++ x :: rest := hsplit ▸ h.mem_breakpoints.mpr hb
  have hsame : b = x := by
    rcases mem_append.mp hmem with hinit' | hrest
    · -- the first part that reaches the place is `x`
      have := hinit b hinit'
      simp [hpos.le] at this
    · rcases mem_cons.mp hrest with heq | hrest
      · exact heq
      · have hpairs := h.before_breakpoints
        rw [hsplit] at hpairs
        have hafter : x.stop ≤ b.generated := (pairwise_cons.mp (pairwise_append.mp hpairs).2.1).1 b hrest
        omega
  rw [ha, ← hsame]
  simp only [toSource, stop]
  congr 2
  omega

theorem unique_inserted {i : Insertion} (hi : i ∈ t.insertions)
    (hn : b.generated ≤ n ∧ n < b.stop) : ¬ (i.generated.start ≤ n ∧ n < i.generated.stop) := by
  intro hin
  cases h.row.unique hb (h.mem_insertions.mp hi) hn hin

/-- No inserted text answers for a start in copied text. -/
theorem mapStart_copied (hge : b.generated ≤ n) (hlt : n < b.stop) :
    t.mapStart n = t.mapCopied n := by
  unfold mapStart
  split
  · rename_i i hfind
    obtain ⟨hi, hin⟩ := find?_and_eq_some hfind
    exact absurd hin (h.unique_inserted hb hi ⟨hge, hlt⟩)
  · rfl

/-- An end in copied text goes to the place it was copied from. -/
theorem mapEnd_copied (hgt : b.generated < n) (hle : n ≤ b.stop) :
    t.mapEnd n = some (b.toSource n) := by
  rcases lt_or_eq_of_le hle with hlt | heq
  · obtain ⟨a, ha⟩ :=
      h.mapEnd_isSome (Nat.zero_lt_of_lt hgt) (hle.trans (h.row.tiles.bounds.2 _ hb).2)
    rw [ha, h.mapEnd_inside hb hgt hlt ha]
    rfl
  · unfold mapEnd
    split
    · rename_i i hfind
      obtain ⟨hi, hin⟩ := find?_and_eq_some hfind
      -- the byte before the end is in both
      exact absurd ⟨by omega, by omega⟩ (h.unique_inserted (n := n - 1) hb hi ⟨by omega, by omega⟩)
    · rw [heq, h.mapCopied_stop hb]
      simp only [toSource, stop]
      congr 2
      omega

/-- A start in copied text goes to the place it was copied from, unless a copied part ends there. -/
theorem mapStart_eq_or_border (hge : b.generated ≤ n) (hlt : n < b.stop) :
    t.mapStart n = some (b.toSource n) ∨ n = b.generated ∧ ∃ c,
      .copied c ∈ pieces ∧ c.stop = n := by
  obtain ⟨a, ha⟩ := h.mapStart_isSome (hlt.trans_le (h.row.tiles.bounds.2 _ hb).2)
  obtain ⟨p, hp, hge', hle', hin, rfl⟩ := h.mapStart_eq_some ha
  by_cases hstop : n < p.generated.stop
  · cases h.row.unique hb hp ⟨hge, hlt⟩ ⟨hge', hstop⟩
    exact .inl ha
  · obtain ⟨c, rfl⟩ := hin.resolve_left hstop
    have hend : c.stop = n := le_antisymm (not_lt.mp hstop) hle'
    refine .inr ⟨?_, c, hp, hend⟩
    have hpos : c.generated < c.stop := (h.row.tiles.bounds.2 _ hp).1
    rcases h.row.eq_or_before hp hb with heq | ⟨hbefore, -⟩ | ⟨hafter, -⟩
    · cases heq
      omega
    · exact le_antisymm (hend ▸ hbefore) hge
    · simp only [Piece.generated] at hafter
      omega

/-- Copied text is not taken for inserted text. -/
theorem isSynthetic_copied (hge : b.generated ≤ r.start) (hlt : r.start < r.stop)
    (hle : r.stop ≤ b.stop) : t.isSynthetic r = false := by
  unfold isSynthetic
  rw [any_eq_false]
  intro i hi hcontains
  rw [Range.contains_iff] at hcontains
  exact h.unique_inserted hb hi ⟨hge, by omega⟩ ⟨hcontains.1, by omega⟩

end

/-- A copied part that is over where another one starts was copied before it. -/
theorem mem_init_of_stop_le {init rest : List Breakpoint}
    (hsplit : t.breakpoints = init ++ b :: rest)
    (hc : c ∈ t.breakpoints) (hle : c.stop ≤ b.generated) : c ∈ init := by
  have hpos : c.generated < c.stop := (h.row.tiles.bounds.2 _ (h.mem_breakpoints.mp hc)).1
  have hpairs := h.before_breakpoints
  rw [hsplit] at hpairs hc
  refine (mem_append.mp hc).resolve_right fun hc => ?_
  rcases mem_cons.mp hc with rfl | hc
  · omega
  · have hstop : b.generated ≤ b.stop := Nat.le_add_right ..
    have hafter : b.stop ≤ c.generated := (pairwise_cons.mp (pairwise_append.mp hpairs).2.1).1 c hc
    omega

/-- A range of copied text keeps its end; its start moves at most to the end of an earlier copied
part. -/
theorem mapRange_copied (hb : .copied b ∈ pieces) (hge : b.generated ≤ r.start)
    (hlt : r.start < r.stop) (hle : r.stop ≤ b.stop) :
    ∃ a, t.mapStart r.start = some a ∧ t.mapRange r = some ⟨a, b.toSource r.stop⟩ := by
  obtain ⟨a, stop, ha, hstop, hrange⟩ := h.mapRange_eq hlt (hle.trans (h.row.tiles.bounds.2 _ hb).2)
  rw [h.mapEnd_copied hb (hge.trans_lt hlt) hle] at hstop
  cases hstop
  exact ⟨a, ha, hrange⟩

end VirtualText.Tiled

namespace TextDraft

theorem breakpoints_perform (d : TextDraft) (step : TextStep) :
    d.breakpoints <+: (step.perform d).breakpoints := by
  cases step with
  | copyUpTo offset =>
    unfold TextStep.perform copyUpTo
    dsimp only
    split
    · exact prefix_refl _
    · exact prefix_append ..
  | skipUpTo offset =>
    unfold TextStep.perform skipUpTo
    dsimp only
    split <;> exact prefix_refl _
  | insert label text =>
    unfold TextStep.perform insert
    dsimp only
    split <;> exact prefix_refl _

/-- What was copied stays copied. -/
theorem breakpoints_run (steps : List TextStep) (d : TextDraft) :
    d.breakpoints <+: (run steps d).breakpoints := by
  induction steps generalizing d with
  | nil => exact prefix_refl _
  | cons step steps ih => exact (d.breakpoints_perform step).trans (ih _)

/-- The part that a copy adds, when it adds one. -/
theorem breakpoints_copyUpTo (h : byteSize d.text < byteSize (d.copyUpTo offset).text) :
    (d.copyUpTo offset).breakpoints = d.breakpoints ++ [⟨d.cursor, byteSize d.text,
      byteSize (d.copyUpTo offset).text - byteSize d.text⟩] := by
  unfold copyUpTo at h ⊢
  split at h
  · exact absurd h (lt_irrefl _)
  · rename_i hlt
    rw [if_neg hlt]
    simp [byteSize_append]

/-- The text ends with copied text, and the source after that was left out. -/
def Seam (d : TextDraft) : Prop :=
  ∃ b ∈ d.breakpoints, b.stop = byteSize d.text ∧ b.source + b.length ≠ d.cursor

instance (d : TextDraft) : Decidable d.Seam := inferInstanceAs (Decidable (∃ b ∈ d.breakpoints, _))

/-- The parts of a text by one of its copies: those copied before, the copy itself, those copied
after. -/
theorem breakpoints_run_append {before after : List TextStep}
    (h : byteSize (run before d).text < byteSize ((run before d).copyUpTo offset).text) :
    ∃ rest, (run (before ++ .copyUpTo offset :: after) d).breakpoints =
      (run before d).breakpoints ++ ⟨(run before d).cursor, byteSize (run before d).text,
        byteSize ((run before d).copyUpTo offset).text - byteSize (run before d).text⟩ :: rest := by
  obtain ⟨rest, hrest⟩ := breakpoints_run after ((run before d).copyUpTo offset)
  refine ⟨rest, ?_⟩
  rw [breakpoints_copyUpTo h, append_assoc] at hrest
  rw [run, foldl_append]
  exact hrest.symm

end TextDraft

/-- A range inside the text of one copy stands for source text of the same length that reads the
same. It goes back to just that, unless it starts at a seam; there it goes back to source text that
starts where the copy before ended. Items with the range stay, and are placed where it goes back
to. -/
theorem run_copied_verbatim {source : Text} {before after : List TextStep} {offset : Nat}
    (hfits : ∀ step ∈ before ++ .copyUpTo offset :: after, step.Fits source) {r : Range}
    (hstart : byteSize (run before (.ofSource source)).text ≤ r.start) (hlt : r.start < r.stop)
    (hstop : r.stop ≤ byteSize ((run before (.ofSource source)).copyUpTo offset).text) :
    let d := run before (.ofSource source)
    let t := (run (before ++ .copyUpTo offset :: after) (.ofSource source)).finish
    let origin : Range := ⟨d.cursor + (r.start - byteSize d.text),
      d.cursor + (r.stop - byteSize d.text)⟩
    origin.stop - origin.start = r.stop - r.start ∧ slice? source origin = slice? t.text r ∧
    ∃ image, t.mapRange r = some image ∧ image.stop = origin.stop ∧
      (image = origin ↔ ¬ (r.start = byteSize d.text ∧ d.Seam)) ∧
      (∀ b ∈ d.breakpoints, b.stop = r.start → image.start = b.source + b.length) ∧
      ∀ {α : Type} [Ranged α] (x : α), Ranged.range x = r → ∀ xs ys coords,
        t.project (xs ++ x :: ys) coords =
          t.project xs coords ++ Ranged.place x image coords :: t.project ys coords := by
  intro d t origin
  change byteSize d.text ≤ r.start at hstart
  change r.stop ≤ byteSize (d.copyUpTo offset).text at hstop
  obtain ⟨pieces, hlaid⟩ := (TextDraft.Laid.ofSource source).run hfits
  have htiled : t.Tiled source pieces := hlaid.tiled
  let b : Breakpoint := ⟨d.cursor, byteSize d.text,
    byteSize (d.copyUpTo offset).text - byteSize d.text⟩
  obtain ⟨rest, hsplit⟩ : ∃ rest, t.breakpoints = d.breakpoints ++ b :: rest :=
    breakpoints_run_append (hstart.trans_lt (hlt.trans_le hstop))
  have hb : .copied b ∈ pieces := htiled.mem_breakpoints.mp (by simp [hsplit])
  have hge : b.generated ≤ r.start := hstart
  have hle : r.stop ≤ b.stop := by
    simp only [b, stop]
    omega
  have hlt' : r.start < b.stop := hlt.trans_le hle
  have horigin : origin = ⟨b.toSource r.start, b.toSource r.stop⟩ := rfl
  have hcursor : b.toSource (byteSize d.text) = d.cursor := by simp [toSource, b]
  obtain ⟨a, ha, hrange⟩ := htiled.mapRange_copied hb hge hlt hle
  -- a part that ends where the range starts answers for it
  have hborder : ∀ c ∈ d.breakpoints, c.stop = r.start → a = c.source + c.length := by
    intro c hc hend
    have hmap := htiled.mapCopied_stop (htiled.mem_breakpoints.mp (hsplit ▸ mem_append_left _ hc))
    rw [hend, ← htiled.mapStart_copied hb hge hlt', ha] at hmap
    exact Option.some.inj hmap
  refine ⟨?_, ?_, ⟨a, b.toSource r.stop⟩, hrange, rfl, ?_, hborder, ?_⟩
  · simp only [origin]
    omega
  · exact (htiled.copied b (htiled.mem_breakpoints.mpr hb)).slice?_eq hge hlt.le hle
  · rw [horigin, Range.mk.injEq, and_iff_left rfl]
    constructor
    · rintro rfl ⟨hsize, c, hc, hend, hgap⟩
      have heq := hborder c hc (hend.trans hsize.symm)
      rw [hsize, hcursor] at heq
      exact hgap heq.symm
    · intro hseam
      rcases htiled.mapStart_eq_or_border hb hge hlt' with hmap | ⟨hsize, c, hc, hend⟩
      · exact Option.some.inj (ha.symm.trans hmap)
      · have hc' : c ∈ d.breakpoints :=
          htiled.mem_init_of_stop_le hsplit (htiled.mem_breakpoints.mpr hc) (hend.trans hsize).le
        have hgap : c.source + c.length = d.cursor := by
          by_contra hgap
          exact hseam ⟨hsize, c, hc', hend.trans hsize, hgap⟩
        rw [hborder c hc' hend, hgap, hsize]
        exact hcursor.symm
  · rintro α _ x rfl xs ys coords
    simp [VirtualText.project, htiled.isSynthetic_copied hb hge hlt hle, hrange]

/-- A range in the third copy, after inserted text and a letter of two bytes left out; it starts
where the copy does. -/
theorem run_copied_verbatim_accented :
    let source : Text := ['h', 'é', 'l', 'l', 'o']
    let before : List TextStep := [.copyUpTo 1, .skipUpTo 3, .insert "vowel" "e", .copyUpTo 4]
    let after : List TextStep := [.insert "end" "!"]
    let t := (run (before ++ .copyUpTo 6 :: after) (.ofSource source)).finish
    let x : Token := { (default : Token) with range := ⟨3, 5⟩ }
    (∀ step ∈ before ++ .copyUpTo 6 :: after, step.Fits source) ∧
      slice? source ⟨4, 6⟩ = slice? t.text ⟨3, 5⟩ ∧ t.mapRange ⟨3, 5⟩ = some ⟨4, 6⟩ ∧
      ∀ coords, t.project [x] coords = [Ranged.place x ⟨4, 6⟩ coords] := by
  intro source before after t x
  have hfits : ∀ step ∈ before ++ .copyUpTo 6 :: after, step.Fits source := by decide
  obtain ⟨-, htext, image, hmap, -, hseam, -, hproject⟩ :=
    run_copied_verbatim (r := ⟨3, 5⟩) hfits (by decide +kernel) (by decide) (by decide +kernel)
  have himage := hseam.mpr (by decide +kernel)
  subst himage
  exact ⟨hfits, htext, hmap, hproject x rfl [] []⟩

/-- Two copies meet at offset 2, and the source between them was left out. The text from there on is
that of the source from 4 on, and goes back to more than that. -/
theorem mapRange_at_seam :
    let source : Text := ['a', 'b', 'c', 'd', 'e', 'f']
    let before : List TextStep := [.copyUpTo 2, .skipUpTo 4]
    let t := (run (before ++ [.copyUpTo 6]) (.ofSource source)).finish
    (∀ step ∈ before ++ [.copyUpTo 6], step.Fits source) ∧
      slice? source ⟨4, 6⟩ = slice? t.text ⟨2, 4⟩ ∧ t.mapRange ⟨2, 4⟩ = some ⟨2, 6⟩ := by
  decide +kernel

end Loom
