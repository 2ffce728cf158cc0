import Loom.Proofs.Draft.Tiling

/-!
Moving ranges of a virtual text to its source.

A place inside a copied part moves with it, and one inside inserted text goes to an end of what the
text stands for. At the border of two pieces either may answer. The pieces and their sources are in
the same order, so the images are in order too, and nested ranges stay nested.
-/

namespace Loom

open Breakpoint Text Piece

namespace Piece

/-- The source offset of something that starts in the piece. -/
def startAt (offset : Nat) : Piece → Nat
  | .copied b => b.toSource offset
  | .inserted i => i.anchor.start

/-- The source offset of something that ends in the piece. -/
def endAt (offset : Nat) : Piece → Nat
  | .copied b => b.toSource offset
  | .inserted i => i.anchor.stop

section Bounds

variable {p : Piece} {m n : Nat}

theorem startAt_bounds (hp : p.source.start ≤ p.source.stop) (hstart : p.generated.start ≤ n)
    (hstop : n ≤ p.generated.stop) :
    p.source.start ≤ p.startAt n ∧ p.startAt n ≤ p.source.stop := by
  cases p with
  | copied b =>
    simp only [source, generated, startAt, toSource, stop] at *
    omega
  | inserted i => exact ⟨le_rfl, hp⟩

theorem endAt_bounds (hp : p.source.start ≤ p.source.stop) (hstart : p.generated.start ≤ n)
    (hstop : n ≤ p.generated.stop) : p.source.start ≤ p.endAt n ∧ p.endAt n ≤ p.source.stop := by
  cases p with
  | copied b => exact startAt_bounds hp hstart hstop
  | inserted i => exact ⟨hp, le_rfl⟩

theorem startAt_mono (hle : m ≤ n) : p.startAt m ≤ p.startAt n := by
  cases p with
  | copied b =>
    simp only [startAt, toSource]
    omega
  | inserted i => exact le_rfl

theorem endAt_mono (hle : m ≤ n) : p.endAt m ≤ p.endAt n := by
  cases p with
  | copied b => exact startAt_mono (p := .copied b) hle
  | inserted i => exact le_rfl

theorem startAt_le_endAt (hp : p.source.start ≤ p.source.stop) (hle : m ≤ n) :
    p.startAt m ≤ p.endAt n := by
  cases p with
  | copied b => exact startAt_mono hle
  | inserted i => exact hp

end Bounds

end Piece

namespace VirtualText

/-- The order of offsets and the nesting of ranges survive the way to the source. -/
structure KeepsOrder (t : VirtualText) : Prop where
  start_defined : ∀ {n}, n < byteSize t.text → ∃ a, t.mapStart n = some a
  end_defined : ∀ {n}, 0 < n → n ≤ byteSize t.text → ∃ a, t.mapEnd n = some a
  start_mono : ∀ {m n a b}, m ≤ n → t.mapStart m = some a → t.mapStart n = some b → a ≤ b
  end_mono : ∀ {m n a b}, m ≤ n → t.mapEnd m = some a → t.mapEnd n = some b → a ≤ b
  start_le_end : ∀ {m n a b}, m < n → t.mapStart m = some a → t.mapEnd n = some b → a ≤ b
  nested : ∀ {inner outer : Range}, inner.start < inner.stop → outer.contains inner →
    outer.stop ≤ byteSize t.text → ∃ inner' outer', t.mapRange inner = some inner' ∧
      t.mapRange outer = some outer' ∧ outer'.contains inner'

namespace Tiled

variable {t : VirtualText} {source : Text} {pieces : List Piece} {p : Piece} {m n a b : Nat}

variable (h : t.Tiled source pieces)

include h

theorem mem_breakpoints {b : Breakpoint} : b ∈ t.breakpoints ↔ .copied b ∈ pieces := by
  rw [← h.breakpoints]
  simp

theorem mem_insertions {i : Insertion} : i ∈ t.insertions ↔ .inserted i ∈ pieces := by
  rw [← h.insertions]
  simp

theorem mapCopied_eq_some (ha : t.mapCopied n = some a) :
    ∃ b, .copied b ∈ pieces ∧ b.generated ≤ n ∧ n ≤ b.stop ∧ a = b.toSource n := by
  obtain ⟨b, hfind, rfl⟩ := Option.map_eq_some_iff.mp ha
  obtain ⟨hb, hge, hle⟩ := find?_and_eq_some hfind
  exact ⟨b, h.mem_breakpoints.mp hb, hge, hle, rfl⟩

theorem mapCopied_isSome {b : Breakpoint} (hb : .copied b ∈ pieces) (hge : b.generated ≤ n)
    (hle : n ≤ b.stop) : ∃ a, t.mapCopied n = some a := by
  unfold mapCopied
  cases hfind : t.breakpoints.find? _ with
  | none => exact absurd (by simp [hge, hle]) (List.find?_eq_none.mp hfind b (h.mem_breakpoints.mpr hb))
  | some x => exact ⟨_, rfl⟩

/-- What answers for the start of something: a piece that holds the offset, or a copied part that
ends there. -/
theorem mapStart_eq_some (ha : t.mapStart n = some a) :
    ∃ p ∈ pieces, p.generated.start ≤ n ∧ n ≤ p.generated.stop ∧
    (n < p.generated.stop ∨ ∃ b, p = .copied b) ∧ a = p.startAt n := by
  unfold mapStart at ha
  split at ha
  · rename_i i hfind
    cases ha
    obtain ⟨hi, hge, hlt⟩ := find?_and_eq_some hfind
    exact ⟨.inserted i, h.mem_insertions.mp hi, hge, hlt.le, .inl hlt, rfl⟩
  · obtain ⟨b, hb, hge, hle, rfl⟩ := h.mapCopied_eq_some ha
    exact ⟨.copied b, hb, hge, hle, .inr ⟨b, rfl⟩, rfl⟩

/-- What answers for the end of something: a piece that holds the byte before, or a copied part that
starts there. -/
theorem mapEnd_eq_some (ha : t.mapEnd n = some a) :
    ∃ p ∈ pieces, p.generated.start ≤ n ∧ n ≤ p.generated.stop ∧
    (p.generated.start < n ∨ ∃ b, p = .copied b) ∧ a = p.endAt n := by
  unfold mapEnd at ha
  split at ha
  · rename_i i hfind
    cases ha
    obtain ⟨hi, hgt, hle⟩ := find?_and_eq_some hfind
    exact ⟨.inserted i, h.mem_insertions.mp hi, hgt.le, hle, .inl hgt, rfl⟩
  · obtain ⟨b, hb, hge, hle, rfl⟩ := h.mapCopied_eq_some ha
    exact ⟨.copied b, hb, hge, hle, .inr ⟨b, rfl⟩, rfl⟩

theorem mapStart_isSome (hn : n < byteSize t.text) : ∃ a, t.mapStart n = some a := by
  obtain ⟨p, hp, hge, hlt⟩ := h.row.tiles.cover (Nat.zero_le n) hn
  unfold mapStart
  split
  · exact ⟨_, rfl⟩
  · rename_i hfind
    cases p with
    | copied b => exact h.mapCopied_isSome hp hge hlt.le
    | inserted i =>
      simp only [Piece.generated] at hge hlt
      exact absurd (by simp [hge, hlt]) (List.find?_eq_none.mp hfind i (h.mem_insertions.mpr hp))

/-- Every positive offset is the end of something in a piece. -/
theorem cover_end (hpos : 0 < n) (hn : n ≤ byteSize t.text) :
    ∃ p ∈ pieces, p.generated.start < n ∧ n ≤ p.generated.stop := by
  obtain ⟨p, hp, hge, hlt⟩ := h.row.tiles.cover (Nat.zero_le (n - 1)) (by omega)
  exact ⟨p, hp, by omega, by omega⟩

theorem mapEnd_isSome (hpos : 0 < n) (hn : n ≤ byteSize t.text) : ∃ a, t.mapEnd n = some a := by
  obtain ⟨p, hp, hlt, hle⟩ := h.cover_end hpos hn
  unfold mapEnd
  split
  · exact ⟨_, rfl⟩
  · rename_i hfind
    cases p with
    | copied b => exact h.mapCopied_isSome hp hlt.le hle
    | inserted i =>
      simp only [Piece.generated] at hlt hle
      exact absurd (by simp [hlt, hle]) (List.find?_eq_none.mp hfind i (h.mem_insertions.mpr hp))

/-! Images of starts, by the pieces around them. -/

theorem mapStart_le_size (ha : t.mapStart n = some a) : n ≤ byteSize t.text := by
  obtain ⟨q, hq, -, hle, -, -⟩ := h.mapStart_eq_some ha
  exact hle.trans (h.row.tiles.bounds.2 q hq).2

/-- A start is not before the source of the pieces that are over by then. -/
theorem stop_le_mapStart (hp : p ∈ pieces) (hn : p.generated.stop ≤ n)
    (ha : t.mapStart n = some a) : p.source.stop ≤ a := by
  obtain ⟨q, hq, hge, hle, hin, rfl⟩ := h.mapStart_eq_some ha
  have hbounds := startAt_bounds (h.row.proper q hq).1 hge hle
  rcases h.row.eq_or_before hp hq with rfl | ⟨-, hsource⟩ | ⟨hgen, -⟩
  · rcases hin with hlt | ⟨b, rfl⟩
    · omega
    · simp only [Piece.source, Piece.generated, Piece.startAt, toSource, stop] at *
      omega
  · exact hsource.trans hbounds.1
  · have := (h.row.tiles.bounds.2 p hp).1
    omega

theorem mapStart_le_startAt (hp : p ∈ pieces) (hge : p.generated.start ≤ n)
    (hlt : n < p.generated.stop) (ha : t.mapStart n = some a) : a ≤ p.startAt n := by
  obtain ⟨q, hq, hge', hle', -, rfl⟩ := h.mapStart_eq_some ha
  rcases h.row.eq_or_before hp hq with rfl | ⟨hgen, -⟩ | ⟨-, hsource⟩
  · exact le_rfl
  · omega
  · calc
      q.startAt n ≤ q.source.stop := (startAt_bounds (h.row.proper q hq).1 hge' hle').2
      _ ≤ p.source.start := hsource
      _ ≤ p.startAt n := (startAt_bounds (h.row.proper p hp).1 hge hlt.le).1

/-- Strictly inside a piece, the piece answers. -/
theorem mapStart_inside (hp : p ∈ pieces) (hgt : p.generated.start < n) (hlt : n < p.generated.stop)
    (ha : t.mapStart n = some a) : a = p.startAt n := by
  obtain ⟨q, hq, hge', hle', -, rfl⟩ := h.mapStart_eq_some ha
  rcases h.row.eq_or_before hp hq with rfl | ⟨hgen, -⟩ | ⟨hgen, -⟩
  · rfl
  · omega
  · omega

/-! Images of ends. -/

theorem mapEnd_le_size (ha : t.mapEnd n = some a) : n ≤ byteSize t.text := by
  obtain ⟨q, hq, -, hle, -, -⟩ := h.mapEnd_eq_some ha
  exact hle.trans (h.row.tiles.bounds.2 q hq).2

/-- An end is not after the source of the pieces that start from there on. -/
theorem mapEnd_le_start (hp : p ∈ pieces) (hn : n ≤ p.generated.start) (ha : t.mapEnd n = some a) :
    a ≤ p.source.start := by
  obtain ⟨q, hq, hge, hle, hin, rfl⟩ := h.mapEnd_eq_some ha
  have hbounds := endAt_bounds (h.row.proper q hq).1 hge hle
  rcases h.row.eq_or_before hp hq with rfl | ⟨hgen, -⟩ | ⟨-, hsource⟩
  · rcases hin with hlt | ⟨b, rfl⟩
    · omega
    · simp only [Piece.source, Piece.generated, Piece.endAt, toSource] at *
      omega
  · have := (h.row.tiles.bounds.2 p hp).1
    omega
  · exact hbounds.2.trans hsource

theorem endAt_le_mapEnd (hp : p ∈ pieces) (hgt : p.generated.start < n) (hle : n ≤ p.generated.stop)
    (ha : t.mapEnd n = some a) : p.endAt n ≤ a := by
  obtain ⟨q, hq, hge', hle', -, rfl⟩ := h.mapEnd_eq_some ha
  rcases h.row.eq_or_before hp hq with rfl | ⟨-, hsource⟩ | ⟨hgen, -⟩
  · exact le_rfl
  · calc
      p.endAt n ≤ p.source.stop := (endAt_bounds (h.row.proper p hp).1 hgt.le hle).2
      _ ≤ q.source.start := hsource
      _ ≤ q.endAt n := (endAt_bounds (h.row.proper q hq).1 hge' hle').1
  · omega

theorem mapEnd_inside (hp : p ∈ pieces) (hgt : p.generated.start < n) (hlt : n < p.generated.stop)
    (ha : t.mapEnd n = some a) : a = p.endAt n := by
  obtain ⟨q, hq, hge', hle', -, rfl⟩ := h.mapEnd_eq_some ha
  rcases h.row.eq_or_before hp hq with rfl | ⟨hgen, -⟩ | ⟨hgen, -⟩
  · rfl
  · omega
  · omega

/-! The order of images. -/

theorem mapStart_mono (hle : m ≤ n) (hm : t.mapStart m = some a) (hn : t.mapStart n = some b) :
    a ≤ b := by
  rcases eq_or_lt_of_le hle with rfl | hlt
  · exact (Option.some.inj (hm.symm.trans hn)).le
  · obtain ⟨p, hp, hge, hltp⟩ :=
      h.row.tiles.cover (Nat.zero_le m) (hlt.trans_le (h.mapStart_le_size hn))
    have hbounds := startAt_bounds (h.row.proper p hp).1 hge hltp.le
    have ha := h.mapStart_le_startAt hp hge hltp hm
    by_cases hsame : n < p.generated.stop
    · rw [h.mapStart_inside hp (hge.trans_lt hlt) hsame hn]
      exact ha.trans (startAt_mono hle)
    · exact le_trans (ha.trans hbounds.2) (h.stop_le_mapStart hp (not_lt.mp hsame) hn)

theorem mapEnd_mono (hle : m ≤ n) (hm : t.mapEnd m = some a) (hn : t.mapEnd n = some b) :
    a ≤ b := by
  rcases eq_or_lt_of_le hle with rfl | hlt
  · exact (Option.some.inj (hm.symm.trans hn)).le
  · obtain ⟨p, hp, hgt, hlep⟩ := h.cover_end (Nat.zero_lt_of_lt hlt) (h.mapEnd_le_size hn)
    have hbounds := endAt_bounds (h.row.proper p hp).1 hgt.le hlep
    have hb := h.endAt_le_mapEnd hp hgt hlep hn
    by_cases hsame : p.generated.start < m
    · rw [h.mapEnd_inside hp hsame (hlt.trans_le hlep) hm]
      exact (endAt_mono hle).trans hb
    · exact le_trans (h.mapEnd_le_start hp (not_lt.mp hsame) hm) (hbounds.1.trans hb)

theorem mapStart_le_mapEnd (hlt : m < n) (hm : t.mapStart m = some a) (hn : t.mapEnd n = some b) :
    a ≤ b := by
  obtain ⟨p, hp, hgt, hlep⟩ := h.cover_end (Nat.zero_lt_of_lt hlt) (h.mapEnd_le_size hn)
  obtain ⟨q, hq, hgeq, hltq⟩ :=
    h.row.tiles.cover (Nat.zero_le m) (hlt.trans_le (h.mapEnd_le_size hn))
  have ha := h.mapStart_le_startAt hq hgeq hltq hm
  have hb := h.endAt_le_mapEnd hp hgt hlep hn
  rcases h.row.eq_or_before hp hq with rfl | ⟨hgen, -⟩ | ⟨-, hsource⟩
  · exact ha.trans (le_trans (startAt_le_endAt (h.row.proper p hp).1 hlt.le) hb)
  · omega
  · calc
      a ≤ q.startAt m := ha
      _ ≤ q.source.stop := (startAt_bounds (h.row.proper q hq).1 hgeq hltq.le).2
      _ ≤ p.source.start := hsource
      _ ≤ p.endAt n := (endAt_bounds (h.row.proper p hp).1 hgt.le hlep).1
      _ ≤ b := hb

/-- A range that is not empty goes to the images of its ends. -/
theorem mapRange_eq {r : Range} (hlt : r.start < r.stop) (hstop : r.stop ≤ byteSize t.text) :
    ∃ a b, t.mapStart r.start = some a ∧ t.mapEnd r.stop = some b ∧ t.mapRange r = some ⟨a, b⟩ := by
  obtain ⟨a, ha⟩ := h.mapStart_isSome (hlt.trans_le hstop)
  obtain ⟨b, hb⟩ := h.mapEnd_isSome (Nat.zero_lt_of_lt hlt) hstop
  refine ⟨a, b, ha, hb, ?_⟩
  have hmax : max b a = b := Nat.max_eq_left (h.mapStart_le_mapEnd hlt ha hb)
  rw [mapRange, ha, hb]
  exact congrArg (fun stop => some (Range.mk a stop)) hmax

theorem keepsOrder : t.KeepsOrder where
  start_defined := h.mapStart_isSome
  end_defined := h.mapEnd_isSome
  start_mono := h.mapStart_mono
  end_mono := h.mapEnd_mono
  start_le_end := h.mapStart_le_mapEnd
  nested := by
    intro inner outer hlt hcontains hstop
    simp only [Range.contains_iff] at hcontains ⊢
    obtain ⟨hstart, hend⟩ := hcontains
    obtain ⟨a, b, ha, hb, hinner⟩ := h.mapRange_eq hlt (hend.trans hstop)
    obtain ⟨a', b', ha', hb', houter⟩ := h.mapRange_eq (by omega) hstop
    exact ⟨_, _, hinner, houter, h.mapStart_mono hstart ha' ha, h.mapEnd_mono hend hb hb'⟩

end Tiled

end VirtualText

/-- Whatever is copied, left out and inserted, the text is a row of pieces in the order of the
source, with every byte in exactly one of them, and the way back to the source keeps order and
nesting. -/
theorem run_tiled_keepsOrder {source : Text} {steps : List TextStep}
    (hfits : ∀ step ∈ steps, step.Fits source) :
    let t := (TextDraft.run steps (.ofSource source)).finish
    (∃ pieces, t.Tiled source pieces ∧ ∀ n < byteSize t.text,
      ∃! p, p ∈ pieces ∧ p.generated.start ≤ n ∧ n < p.generated.stop) ∧ t.KeepsOrder := by
  intro t
  obtain ⟨pieces, hlaid⟩ := (TextDraft.Laid.ofSource source).run hfits
  have htiled := hlaid.tiled
  exact ⟨⟨pieces, htiled, fun n hn => htiled.row.existsUnique hn⟩, htiled.keepsOrder⟩

/-- A letter of two bytes is left out, a skip is forgotten, and two insertions become one. -/
theorem run_tiled_keepsOrder_accented :
    let source : Text := ['h', 'é', 'l', 'l', 'o']
    let steps : List TextStep := [.copyUpTo 1, .skipUpTo 3, .insert "vowel" "e", .copyUpTo 1,
      .skipUpTo 4, .insert "double" "ll", .copyUpTo 6]
    let t := (TextDraft.run steps (.ofSource source)).finish
    (∀ step ∈ steps, step.Fits source) ∧
      t.insertions.map (·.anchor) = [⟨1, 4⟩] ∧ t.mapRange ⟨1, 4⟩ = some ⟨1, 4⟩ ∧
      (∃ pieces, t.Tiled source pieces) ∧ t.KeepsOrder := by
  intro source steps t
  have hfits : ∀ step ∈ steps, step.Fits source := by decide
  obtain ⟨⟨pieces, htiled, -⟩, horder⟩ := run_tiled_keepsOrder hfits
  exact ⟨hfits, by decide +kernel, by decide +kernel, ⟨pieces, htiled⟩, horder⟩

end Loom
