import Mathlib.Data.List.Chain
import Loom.Proofs.Draft.Provenance
import Loom.VirtualText

/-!
Virtual texts as rows of pieces.

A draft of a virtual text is made by copying, leaving out and inserting, from left to right.
Whatever the order of these steps, the copied parts and the runs of inserted text lie side by side,
each stands for a part of the source, and these parts are in order too.
-/

open List

namespace Loom

open Text TextDraft

/-- One operation on a draft of a virtual text. -/
inductive TextStep where
  | copyUpTo (offset : Nat)
  | skipUpTo (offset : Nat)
  | insert (label text : String)
deriving DecidableEq, Repr

namespace TextStep

def perform (d : TextDraft) : TextStep → TextDraft
  | .copyUpTo offset => d.copyUpTo offset
  | .skipUpTo offset => d.skipUpTo offset
  | .insert label text => d.insert label text

/-- The source may be cut where the step asks for it. -/
def Fits (source : Text) : TextStep → Prop
  | .copyUpTo offset | .skipUpTo offset => isBoundary source offset
  | .insert .. => True

instance (source : Text) (step : TextStep) : Decidable (step.Fits source) := by
  cases step <;> dsimp only [TextStep.Fits] <;> infer_instance

end TextStep

/-- The draft after some steps. -/
def TextDraft.run (steps : List TextStep) (d : TextDraft) : TextDraft :=
  steps.foldl TextStep.perform d

/-- A part of a virtual text. -/
inductive Piece where
  | copied (b : Breakpoint)
  | inserted (i : Insertion)
deriving DecidableEq, Repr

namespace Piece

/-- The bytes of the virtual text that the piece is made of. -/
def generated : Piece → Range
  | .copied b => ⟨b.generated, b.stop⟩
  | .inserted i => i.generated

/-- The bytes of the source that the piece stands for. -/
def source : Piece → Range
  | .copied b => ⟨b.source, b.source + b.length⟩
  | .inserted i => i.anchor

def copied? : Piece → Option Breakpoint
  | .copied b => some b
  | .inserted _ => none

def inserted? : Piece → Option Insertion
  | .copied _ => none
  | .inserted i => some i

/-- Whether two pieces may lie side by side: inserted text is in one run. -/
def Neighbours (p q : Piece) : Prop := p.inserted?.isSome → q.inserted?.isSome → False

/-- One piece comes first, in the virtual text and in the source. -/
def Before (p q : Piece) : Prop :=
  p.generated.stop ≤ q.generated.start ∧ p.source.stop ≤ q.source.start

@[simp] theorem copied?_eq_some {p : Piece} {b : Breakpoint} :
    p.copied? = some b ↔ p = .copied b := by
  cases p <;> simp [copied?]

@[simp] theorem inserted?_eq_some {p : Piece} {i : Insertion} :
    p.inserted? = some i ↔ p = .inserted i := by
  cases p <;> simp [inserted?]

end Piece

/-- The pieces fill the offsets from `lo` up to `hi`, one after the other, and none is empty. -/
def Tiles : Nat → List Piece → Nat → Prop
  | lo, [], hi => lo = hi
  | lo, p :: ps, hi =>
    p.generated.start = lo ∧ lo < p.generated.stop ∧ Tiles p.generated.stop ps hi

/-- A row of pieces that fills the first `hi` bytes of a virtual text and stands for parts of the
first `limit` bytes of a source. -/
structure Row (limit : Nat) (pieces : List Piece) (hi : Nat) : Prop where
  tiles : Tiles 0 pieces hi
  merged : pieces.IsChain Piece.Neighbours
  ordered : pieces.Pairwise Piece.Before
  proper : ∀ p ∈ pieces, p.source.start ≤ p.source.stop ∧ p.source.stop ≤ limit

/-- A virtual text that consists of the pieces. -/
structure VirtualText.Tiled (t : VirtualText) (source : Text) (pieces : List Piece) : Prop where
  row : Row (byteSize source) pieces (byteSize t.text)
  breakpoints : pieces.filterMap Piece.copied? = t.breakpoints
  insertions : pieces.filterMap Piece.inserted? = t.insertions
  copied : ∀ b ∈ t.breakpoints, b.Copied source t.text

/-! Rows. -/

variable {pieces : List Piece} {p q : Piece} {limit hi n : Nat}

section Tiles

variable {lo : Nat}

theorem tiles_snoc : Tiles lo (pieces ++ [p]) hi ↔
    Tiles lo pieces p.generated.start ∧ p.generated.start < p.generated.stop ∧
      p.generated.stop = hi := by
  induction pieces generalizing lo with
  | nil =>
    constructor
    all_goals
      rintro ⟨rfl, hlt, hstop⟩
      exact ⟨rfl, hlt, hstop⟩
  | cons q qs ih => simp only [cons_append, Tiles, ih, and_assoc]

/-- The pieces stay inside what they fill. -/
theorem Tiles.bounds (h : Tiles lo pieces hi) :
    lo ≤ hi ∧ ∀ p ∈ pieces, p.generated.start < p.generated.stop ∧ p.generated.stop ≤ hi := by
  induction pieces generalizing lo with
  | nil => exact ⟨h.le, by simp⟩
  | cons q qs ih =>
    obtain ⟨hstart, hlt, hrest⟩ := h
    obtain ⟨hle, hqs⟩ := ih hrest
    refine ⟨by omega, ?_⟩
    intro p hp
    rcases mem_cons.mp hp with rfl | hp
    · exact ⟨by omega, hle⟩
    · exact hqs p hp

/-- Every offset lies in a piece. -/
theorem Tiles.cover (h : Tiles lo pieces hi) (hlo : lo ≤ n) (hhi : n < hi) :
    ∃ p ∈ pieces, p.generated.start ≤ n ∧ n < p.generated.stop := by
  induction pieces generalizing lo with
  | nil => exact absurd (hhi.trans_le (Eq.symm h).le) hlo.not_gt
  | cons q qs ih =>
    obtain ⟨hstart, -, hrest⟩ := h
    by_cases hn : n < q.generated.stop
    · exact ⟨q, by simp, by omega, hn⟩
    · obtain ⟨p, hp, hcover⟩ := ih hrest (not_lt.mp hn)
      exact ⟨p, mem_cons_of_mem _ hp, hcover⟩

end Tiles

namespace Row

theorem nil : Row limit [] 0 := ⟨rfl, .nil, .nil, by simp⟩

/-- A row with one more piece at its end. -/
theorem snoc_iff : Row limit (pieces ++ [p]) hi ↔ Row limit pieces p.generated.start ∧
    (p.generated.start < p.generated.stop ∧ p.generated.stop = hi) ∧
    (∀ q ∈ pieces.getLast?, q.Neighbours p) ∧
    (∀ q ∈ pieces, q.source.stop ≤ p.source.start) ∧
    p.source.start ≤ p.source.stop ∧ p.source.stop ≤ limit := by
  constructor
  · rintro ⟨htiles, hmerged, hord, hproper⟩
    obtain ⟨hinit, hlt, hstop⟩ := tiles_snoc.mp htiles
    obtain ⟨hchain, -, hlast⟩ := isChain_append.mp hmerged
    obtain ⟨hpairs, -, hbefore⟩ := pairwise_append.mp hord
    obtain ⟨hrest, hp⟩ := forall_mem_append.mp hproper
    refine ⟨⟨hinit, hchain, hpairs, hrest⟩, ⟨hlt, hstop⟩, ?_, ?_, hp p (by simp)⟩
    · intro q hq
      exact hlast q hq p rfl
    · intro q hq
      exact (hbefore q hq p (by simp)).2
  · rintro ⟨⟨hinit, hchain, hpairs, hrest⟩, ⟨hlt, hstop⟩, hlast, hsource, hp⟩
    refine ⟨tiles_snoc.mpr ⟨hinit, hlt, hstop⟩, ?_, ?_, ?_⟩
    · refine isChain_append.mpr ⟨hchain, .singleton _, ?_⟩
      rintro q hq _ ⟨⟩
      exact hlast q hq
    · refine pairwise_append.mpr ⟨hpairs, pairwise_singleton .., ?_⟩
      intro q hq x hx
      obtain rfl := mem_singleton.mp hx
      exact ⟨(hinit.bounds.2 q hq).2, hsource q hq⟩
    · refine forall_mem_append.mpr ⟨hrest, ?_⟩
      exact forall_mem_singleton.mpr hp

theorem eq_or_before (h : Row limit pieces hi) (hp : p ∈ pieces) (hq : q ∈ pieces) :
    p = q ∨ p.Before q ∨ q.Before p :=
  eq_or_rel_of_pairwise h.ordered hp hq

/-- No two pieces share an offset. -/
theorem unique (h : Row limit pieces hi) (hp : p ∈ pieces) (hq : q ∈ pieces)
    (hpn : p.generated.start ≤ n ∧ n < p.generated.stop)
    (hqn : q.generated.start ≤ n ∧ n < q.generated.stop) : p = q := by
  rcases h.eq_or_before hp hq with heq | ⟨hbefore, -⟩ | ⟨hafter, -⟩
  · exact heq
  · omega
  · omega

/-- Every byte lies in exactly one piece. -/
theorem existsUnique (h : Row limit pieces hi) (hn : n < hi) :
    ∃! p, p ∈ pieces ∧ p.generated.start ≤ n ∧ n < p.generated.stop := by
  obtain ⟨p, hp, hpn⟩ := h.tiles.cover (Nat.zero_le n) hn
  refine ⟨p, ⟨hp, hpn⟩, ?_⟩
  rintro q ⟨hq, hqn⟩
  exact h.unique hq hp hqn hpn

end Row

/-! Insertions. -/

namespace TextDraft

/-- Two insertions that meet, as one. -/
def widened (last i : Insertion) : Insertion where
  label := joinLabel last.label i.label
  generated := ⟨last.generated.start, i.generated.stop⟩
  anchor := ⟨last.anchor.start, max last.anchor.stop i.anchor.stop⟩

theorem addInsertion_apart {is : List Insertion} {i : Insertion}
    (h : ∀ j ∈ is, j.generated.stop ≠ i.generated.start) : addInsertion is i = is ++ [i] := by
  fun_induction addInsertion is i with
  | case1 => rfl
  | case2 last i heq => exact absurd heq (h last (by simp))
  | case3 => rfl
  | case4 x y rest i ih =>
    rw [ih fun j hj => h j (mem_cons_of_mem _ hj)]
    rfl

theorem addInsertion_widen {last i : Insertion} (init : List Insertion)
    (h : last.generated.stop = i.generated.start) :
    addInsertion (init ++ [last]) i = init ++ [widened last i] := by
  induction init with
  | nil => simp only [nil_append, addInsertion, if_pos h, widened]
  | cons x init ih =>
    cases init with
    | nil => exact congrArg (x :: ·) ih
    | cons y init => exact congrArg (x :: ·) ih

end TextDraft

namespace Row

variable {i : Insertion}

section

variable (h : Row limit pieces i.generated.start) (hpos : i.generated.start < i.generated.stop)
  (hbefore : ∀ p ∈ pieces, p.source.stop ≤ i.anchor.start) (hle : i.anchor.start ≤ i.anchor.stop)
  (hlimit : i.anchor.stop ≤ limit)

include h hpos hbefore hle hlimit

/-- An insertion after pieces that do not end in one is a piece of its own. -/
theorem appendInsertion (hlast : ∀ q ∈ pieces.getLast?, q.Neighbours (.inserted i))
    (hends : ∀ j, .inserted j ∈ pieces → j.generated.stop ≠ i.generated.start) :
    Row limit (pieces ++ [.inserted i]) i.generated.stop ∧
      (pieces ++ [Piece.inserted i]).filterMap Piece.copied? = pieces.filterMap Piece.copied? ∧
      (pieces ++ [Piece.inserted i]).filterMap Piece.inserted? =
        addInsertion (pieces.filterMap Piece.inserted?) i ∧
      ∀ p ∈ pieces ++ [.inserted i], p.source.stop ≤ i.anchor.stop := by
  refine ⟨snoc_iff.mpr ⟨h, ⟨hpos, rfl⟩, hlast, hbefore, hle, hlimit⟩, ?_, ?_, ?_⟩
  · rw [filterMap_append]
    exact append_nil _
  · rw [filterMap_append, addInsertion_apart]
    · rfl
    · intro j hj
      obtain ⟨q, hq, hqj⟩ := mem_filterMap.mp hj
      exact hends j (Piece.inserted?_eq_some.mp hqj ▸ hq)
  · refine forall_mem_append.mpr ⟨fun p hp => ?_, forall_mem_singleton.mpr le_rfl⟩
    exact (hbefore p hp).trans hle

/-- An insertion at the end of a row, alone or as a part of the last piece. -/
theorem addInsertion :
    ∃ pieces', Row limit pieces' i.generated.stop ∧ pieces'.filterMap Piece.copied? =
      pieces.filterMap Piece.copied? ∧
      pieces'.filterMap Piece.inserted? = addInsertion (pieces.filterMap Piece.inserted?) i ∧
      ∀ p ∈ pieces', p.source.stop ≤ i.anchor.stop := by
  rcases eq_nil_or_concat' pieces with rfl | ⟨init, last, rfl⟩
  · exact ⟨_, h.appendInsertion hpos hbefore hle hlimit (by simp) (by simp)⟩
  obtain ⟨hinit, ⟨hlt, hstop⟩, hlast, hsource, hproper, -⟩ := snoc_iff.mp h
  cases last with
  | copied b =>
    refine ⟨_, h.appendInsertion hpos hbefore hle hlimit ?_ ?_⟩
    · simp [Piece.Neighbours, Piece.inserted?]
    · intro j hj
      have hj : Piece.inserted j ∈ init := by simpa using hj
      have hle := (hinit.tiles.bounds.2 _ hj).2
      exact ne_of_lt (hle.trans_lt (hstop ▸ hlt))
  | inserted last =>
    have hcover : last.anchor.stop ≤ i.anchor.start := hbefore (.inserted last) (by simp)
    have hmax := Nat.max_eq_right (hcover.trans hle)
    have hwide : (widened last i).anchor = ⟨last.anchor.start, i.anchor.stop⟩ :=
      congrArg (Range.mk last.anchor.start) hmax
    refine ⟨init ++ [.inserted (widened last i)], ?_, ?_, ?_, ?_⟩
    · refine snoc_iff.mpr ⟨hinit, ⟨?_, rfl⟩, hlast, ?_, ?_, ?_⟩
      · exact (hstop ▸ hlt).trans hpos
      · simpa only [Piece.source, hwide] using hsource
      · simp only [Piece.source, hwide] at hproper ⊢
        exact hproper.trans (hcover.trans hle)
      · simpa only [Piece.source, hwide] using hlimit
    · rw [filterMap_append, filterMap_append]
      rfl
    · rw [filterMap_append, filterMap_append]
      exact (addInsertion_widen _ hstop).symm
    · refine forall_mem_append.mpr ⟨fun p hp => ?_, forall_mem_singleton.mpr ?_⟩
      · exact (hbefore p (by simp [hp])).trans hle
      · simp only [Piece.source, hwide, le_refl]

end

end Row

namespace TextDraft

/-- The part of the source that the next insertion stands for. -/
def pending (d : TextDraft) : Range := d.skipped.getD ⟨d.cursor, d.cursor⟩

/-- What holds of a draft between two steps. -/
structure Laid (source : Text) (d : TextDraft) (pieces : List Piece) : Prop where
  source_eq : d.source = source
  tiled : d.finish.Tiled source pieces
  cursor : isBoundary source d.cursor
  pending_le : d.pending.start ≤ d.pending.stop
  pending_stop : d.pending.stop = d.cursor
  before : ∀ p ∈ pieces, p.source.stop ≤ d.pending.start

section Laid

variable {source : Text} {d : TextDraft}

theorem Laid.ofSource (source : Text) : (TextDraft.ofSource source).Laid source [] where
  source_eq := rfl
  tiled := ⟨Row.nil, rfl, rfl, by simp [finish, TextDraft.ofSource]⟩
  cursor := by simp [TextDraft.ofSource, isBoundary, dropBytes?_zero]
  pending_le := le_rfl
  pending_stop := rfl
  before := by simp

theorem Laid.before_cursor (h : d.Laid source pieces) {p : Piece} (hp : p ∈ pieces) :
    p.source.stop ≤ d.cursor :=
  calc
    p.source.stop ≤ d.pending.start := h.before p hp
    _ ≤ d.pending.stop := h.pending_le
    _ = d.cursor := h.pending_stop

/-- Leaving out what was left out before, and copying nothing. -/
theorem Laid.forget (h : d.Laid source pieces) : Laid source { d with skipped := none } pieces where
  source_eq := h.source_eq
  tiled := h.tiled
  cursor := h.cursor
  pending_le := le_rfl
  pending_stop := rfl
  before := fun _ hp => h.before_cursor hp

theorem Laid.copyUpTo {offset : Nat} (h : d.Laid source pieces)
    (hoffset : isBoundary source offset) : ∃ pieces', (d.copyUpTo offset).Laid source pieces' := by
  unfold TextDraft.copyUpTo
  split
  · exact ⟨pieces, h.forget⟩
  · rename_i hlt
    have hlt : d.cursor < offset := not_le.mp hlt
    obtain ⟨part, hpart⟩ := slice?_isSome (r := ⟨d.cursor, offset⟩) hlt.le h.cursor hoffset
    have hslice : slice d.source ⟨d.cursor, offset⟩ = part := by
      rw [h.source_eq, slice, hpart, Option.getD_some]
    have hsize : byteSize part = offset - d.cursor := by
      obtain ⟨-, pre, post, -, -, hsize⟩ := slice?_eq_some.mp hpart
      exact hsize
    have hend : d.cursor + byteSize part = offset := by omega
    have hlimit := le_byteSize_of_isBoundary hoffset
    rw [hslice]
    let b : Breakpoint := ⟨d.cursor, byteSize d.text, byteSize part⟩
    refine ⟨pieces ++ [.copied b], h.source_eq, ⟨?_, ?_, ?_, ?_⟩, hoffset, le_rfl, rfl, ?_⟩
    · refine Row.snoc_iff.mpr ⟨h.tiled.row, ⟨?_, ?_⟩, ?_, ?_, ?_, ?_⟩
      · simp only [Piece.generated, Breakpoint.stop, b]
        omega
      · exact (byteSize_append ..).symm
      · rintro q - - ⟨⟩
      · exact fun q hq => h.before_cursor hq
      · exact Nat.le_add_right ..
      · exact le_trans hend.le hlimit
    · rw [filterMap_append, h.tiled.breakpoints]
      rfl
    · rw [filterMap_append, h.tiled.insertions]
      exact append_nil _
    · refine forall_mem_append.mpr ⟨?_, forall_mem_singleton.mpr ⟨part, ?_, ?_⟩⟩
      · exact fun x hx => (h.tiled.copied x hx).extend (prefix_append ..)
      · rwa [hend]
      · exact slice?_eq_some.mpr ⟨Nat.le_add_right .., d.text, [], by simp [finish],
          rfl, by simp [Breakpoint.stop]⟩
    · refine forall_mem_append.mpr ⟨fun q hq => ?_, forall_mem_singleton.mpr ?_⟩
      · exact (h.before_cursor hq).trans hlt.le
      · exact hend.le

theorem Laid.skipUpTo {offset : Nat} (h : d.Laid source pieces)
    (hoffset : isBoundary source offset) : (d.skipUpTo offset).Laid source pieces := by
  unfold TextDraft.skipUpTo
  split
  · exact h
  · rename_i hlt
    have hlt : d.cursor < offset := not_le.mp hlt
    have hstart : (d.skipped.map (·.start)).getD d.cursor = d.pending.start := by
      unfold pending
      cases d.skipped <;> rfl
    have hle := h.pending_le
    rw [h.pending_stop] at hle
    rw [hstart]
    exact ⟨h.source_eq, h.tiled, hoffset, hle.trans hlt.le, rfl, h.before⟩

theorem Laid.insert {label text : String} (h : d.Laid source pieces) :
    ∃ pieces', (d.insert label text).Laid source pieces' := by
  unfold TextDraft.insert
  split
  · exact ⟨pieces, h⟩
  · rename_i hempty
    have hlimit := le_byteSize_of_isBoundary h.cursor
    let i : Insertion :=
      ⟨label, ⟨byteSize d.text, byteSize d.text + byteSize text.toList⟩, d.pending⟩
    have hpos : i.generated.start < i.generated.stop :=
      Nat.lt_add_of_pos_right (byteSize_pos (by simpa using hempty))
    obtain ⟨pieces', hrow, hbreaks, hinsertions, hbefore⟩ :=
      h.tiled.row.addInsertion hpos h.before h.pending_le (h.pending_stop ▸ hlimit)
    rw [h.tiled.breakpoints] at hbreaks
    rw [h.tiled.insertions] at hinsertions
    refine ⟨pieces', h.source_eq, ⟨?_, hbreaks, hinsertions, ?_⟩, h.cursor, le_rfl, rfl,
      h.pending_stop ▸ hbefore⟩
    · simpa only [finish, byteSize_append] using hrow
    · exact fun x hx => (h.tiled.copied x hx).extend (prefix_append ..)

theorem Laid.perform {step : TextStep} (h : d.Laid source pieces) (hfits : step.Fits source) :
    ∃ pieces', (step.perform d).Laid source pieces' := by
  cases step with
  | copyUpTo offset => exact h.copyUpTo hfits
  | skipUpTo offset => exact ⟨pieces, h.skipUpTo hfits⟩
  | insert label text => exact h.insert

theorem Laid.run {steps : List TextStep} (h : d.Laid source pieces)
    (hfits : ∀ step ∈ steps, step.Fits source) : ∃ pieces', (run steps d).Laid source pieces' := by
  induction steps generalizing d pieces with
  | nil => exact ⟨pieces, h⟩
  | cons step steps ih =>
    obtain ⟨pieces', h'⟩ := h.perform (hfits step (by simp))
    exact ih h' fun step hstep => hfits step (mem_cons_of_mem _ hstep)

end Laid

end TextDraft

end Loom
