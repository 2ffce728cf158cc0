import Loom.Proofs.Restore.Unified

/-!
The range of a restored program, held against its content: its statements and markup nodes, the
tokens and the comments.

All three are in the order of their starts, so the first ones say where the content starts. Where it
ends cannot be read off the last ones: a node that starts early may outlast everything that starts
after it.
-/

open List

namespace Loom

open Arena Sample

variable {program : NodeId} {body : List NodeId} {st : SourceType} {tokens : List Token}
  {comments : List Comment}

/-- The ranges of a body, of tokens and of comments. -/
def contentRanges (range : NodeId → Range) (body : List NodeId) (tokens : List Token)
    (comments : List Comment) : List (List Range) :=
  [body.map range, tokens.map Token.range, comments.map Comment.range]

namespace Range

variable {r x : Range} {ls : List (List Range)}

/-- The range ends after the last range of each list. -/
def Outlasts (x : Range) (ls : List (List Range)) : Prop :=
  ∀ l ∈ ls, ∀ y ∈ l.getLast?, y.stop < x.stop

/-- The range starts where the first range of the lists starts. It ends where the last range of a
list ends, or at once. -/
structure Frames (r : Range) (ls : List (List Range)) : Prop where
  start_le : ∀ l ∈ ls, ∀ x ∈ l, r.start ≤ x.start
  start_mem : ∃ l ∈ ls, ∃ x ∈ l, x.start = r.start
  stop_le : ∀ l ∈ ls, ∀ x ∈ l.getLast?, x.stop ≤ r.stop
  stop_mem : r.stop = r.start ∨ ∃ l ∈ ls, ∃ x ∈ l.getLast?, x.stop = r.stop
  ordered : r.start ≤ r.stop

theorem Frames.contains_iff {l : List Range} (h : r.Frames ls) (hl : l ∈ ls) (hx : x ∈ l) :
    r.contains x = true ↔ ¬ (r.start < x.stop ∧ x.Outlasts ls) := by
  have hstart := h.start_le l hl x hx
  have hord := h.ordered
  have hcontains : r.contains x = true ↔ x.stop ≤ r.stop := by
    simp [contains, hstart]
  rw [hcontains]
  constructor
  · rintro hstop ⟨hlt, hlasts⟩
    rcases h.stop_mem with hempty | ⟨l, hl, y, hy, heq⟩
    · omega
    · have := hlasts l hl y hy
      omega
  · intro hnot
    by_contra hlt
    refine hnot ⟨by omega, fun l hl y hy => ?_⟩
    have := h.stop_le l hl y hy
    omega

/-- The ends of the lists give the least start, as the lists are sorted. -/
theorem frames_of_ends {starts stops : List Nat} {start stop : Nat}
    (hsorted : ∀ l ∈ ls, l.Pairwise fun x y => x.start ≤ y.start)
    (hstarts : ∀ n, n ∈ starts ↔ ∃ l ∈ ls, ∃ x ∈ l.head?, x.start = n)
    (hstops : ∀ n, n ∈ stops ↔ ∃ l ∈ ls, ∃ x ∈ l.getLast?, x.stop = n)
    (hstart : starts.min? = some start) (hstop : stops.max? = some stop) :
    Frames ⟨start, max stop start⟩ ls := by
  obtain ⟨hmin, hleast⟩ := min?_eq_some_iff.mp hstart
  obtain ⟨hmax, hgreatest⟩ := max?_eq_some_iff.mp hstop
  refine ⟨?_, ?_, ?_, ?_, le_max_right ..⟩
  · intro l hl x hx
    obtain ⟨y, rest, rfl⟩ := exists_cons_of_ne_nil (ne_nil_of_mem hx)
    have hfirst : start ≤ y.start := hleast _ ((hstarts _).mpr ⟨_, hl, y, rfl, rfl⟩)
    rcases mem_cons.mp hx with rfl | hx
    · exact hfirst
    · exact hfirst.trans ((pairwise_cons.mp (hsorted _ hl)).1 x hx)
  · obtain ⟨l, hl, x, hx, heq⟩ := (hstarts start).mp hmin
    exact ⟨l, hl, x, mem_of_head? hx, heq⟩
  · intro l hl x hx
    exact (hgreatest _ ((hstops _).mpr ⟨l, hl, x, hx, rfl⟩)).trans (le_max_left ..)
  · rcases le_total stop start with hle | hle
    · exact .inl (Nat.max_eq_right hle)
    · rw [Nat.max_eq_left hle]
      exact .inr ((hstops stop).mp hmax)

end Range

theorem contentRange_frames {a : Arena} (hkind : a.kind program = .program st body)
    (hbody : body ≠ [])
    (hsorted : ∀ l ∈ contentRanges a.range body tokens comments,
      l.Pairwise fun x y => x.start ≤ y.start) :
    (contentRange a program tokens comments).Frames
      (contentRanges a.range body tokens comments) := by
  have hkids : a.children program = body := by
    unfold children
    rw [hkind]
    exact Kind.childIds_program
  unfold contentRange
  rw [hkids]
  dsimp only
  split
  · rename_i start stop hstart hstop
    exact Range.frames_of_ends hsorted (by simp [contentRanges]) (by simp [contentRanges]) hstart
      hstop
  · rename_i hempty
    -- The body has a first node and a last one.
    exact (hempty _ _ (min?_eq_some_min (by simp [hbody]))
      (max?_eq_some_max (by simp [hbody]))).elim

/-- The content may list the program itself, with the range that it gets. -/
theorem Range.Frames.override {r : Range} {range range' : NodeId → Range}
    (h : r.Frames (contentRanges range body tokens comments))
    (hrange : ∀ n, range' n = range n ∨ range' n = r) :
    r.Frames (contentRanges range' body tokens comments) := by
  obtain ⟨hstart, hfirst, hstop, hlast, hord⟩ := h
  refine ⟨?_, ?_, ?_, ?_, hord⟩ <;>
    simp only [contentRanges, forall_mem_cons, exists_mem_cons_iff, getLast?_map,
      Option.mem_map] at *
  · refine ⟨fun x hx => ?_, hstart.2⟩
    obtain ⟨n, hn, rfl⟩ := mem_map.mp hx
    rcases hrange n with heq | heq <;> rw [heq]
    exact hstart.1 _ (mem_map_of_mem hn)
  · refine hfirst.imp_left ?_
    rintro ⟨x, hx, hsame⟩
    obtain ⟨n, hn, rfl⟩ := mem_map.mp hx
    refine ⟨range' n, mem_map_of_mem hn, ?_⟩
    rcases hrange n with heq | heq <;> rw [heq]
    exact hsame
  · refine ⟨?_, hstop.2⟩
    rintro x ⟨n, hn, rfl⟩
    rcases hrange n with heq | heq <;> rw [heq]
    exact hstop.1 _ ⟨n, hn, rfl⟩
  · refine hlast.imp_right (Or.imp_left ?_)
    rintro ⟨x, ⟨n, hn, rfl⟩, hsame⟩
    refine ⟨range' n, ⟨n, hn, rfl⟩, ?_⟩
    rcases hrange n with heq | heq <;> rw [heq]
    exact hsame

/-- The body of the program is put in the order of the starts. -/
theorem Workbench.placeRoots_sorted {w : Workbench} {roots : List NodeId}
    (hkind : (w.placeRoots program roots).arena.kind program = .program st body) :
    body.Pairwise fun x y => ((w.placeRoots program roots).arena.range x).start ≤
      ((w.placeRoots program roots).arena.range y).start := by
  unfold placeRoots at hkind ⊢
  dsimp only at hkind ⊢
  generalize roots.foldl (fun a r => (a.pushChild program r).2) w.arena = a at hkind ⊢
  split at hkind
  · rename_i st' body' hprog
    have hsize : program < a.size := lt_size_of_kind (by simp [hprog])
    rw [kind_setKind, if_pos ⟨rfl, hsize⟩, Kind.program.injEq] at hkind
    rw [← hkind.2]
    simp only [range_setKind]
    exact pairwise_mergeSort_key (fun x => (a.range x).start) _
  · rename_i hother
    exact absurd hkind (hother _ _)

/-- The start of a restored program is the least start in its content. What it does not span of its
content are the ranges that outlast the last node of the body, the last token and the last
comment. -/
theorem restore_spans_content {coords : Coordinates} {v : VirtualScript} {h : Arena}
    {scopes : ScopeGraph}
    {program : NodeId} {tokens : List Token} {comments : List Comment} {roots body : List NodeId}
    {st : SourceType}
    {r : Restored} (hok : restore coords v h scopes program tokens comments roots = .ok r)
    (hkind : r.arena.kind program = .program st body) (hbody : body ≠ []) :
    let content := contentRanges r.arena.range body r.tokens r.comments
    (∀ l ∈ content, ∀ x ∈ l, (r.arena.range program).start ≤ x.start) ∧
      (∃ l ∈ content, ∃ x ∈ l, x.start = (r.arena.range program).start) ∧
      ∀ l ∈ content, ∀ x ∈ l, (r.arena.range program).contains x = true ↔
        ¬ ((r.arena.range program).start < x.stop ∧ x.Outlasts content) := by
  obtain ⟨s, w, -, -, -, harena, -, htokens, hcomments⟩ := restore_eq_ok hok
  generalize hplaced : (w.placeRoots program roots).arena = a at harena
  rw [harena, kind_setRange] at hkind
  have hsorted : ∀ l ∈ contentRanges a.range body r.tokens r.comments,
      l.Pairwise fun x y => x.start ≤ y.start := by
    intro l hl
    simp only [contentRanges, mem_cons, not_mem_nil, or_false] at hl
    rcases hl with rfl | rfl | rfl
    · rw [pairwise_map]
      subst hplaced
      exact Workbench.placeRoots_sorted hkind
    · rw [pairwise_map, htokens]
      exact Cursor.sortByStart_sorted _
    · rw [pairwise_map, hcomments]
      exact Cursor.sortByStart_sorted _
  have hlt : program < a.size := lt_size_of_kind (by simp [hkind])
  have hrange : ∀ n, r.arena.range n =
      if n = program then contentRange a program r.tokens r.comments else a.range n := fun n => by
    rw [harena, range_setRange hlt]
  have hprog : r.arena.range program = contentRange a program r.tokens
      r.comments := by rw [hrange, if_pos rfl]
  have hframes : (contentRange a program r.tokens r.comments).Frames
      (contentRanges r.arena.range body r.tokens r.comments) := by
    refine (contentRange_frames hkind hbody hsorted).override fun n => ?_
    rw [hrange]
    split
    · exact .inr rfl
    · exact .inl rfl
  rw [← hprog] at hframes
  exact ⟨hframes.start_le, hframes.start_mem, fun l hl x hx => hframes.contains_iff hl hx⟩

/-- An element around the only script. -/
def Sample.nested : Sample where
  source := "<div><script>a</script></div>".toList
  document := ⟨[⟨⟨13, 14⟩, false, none⟩], [.element "div" .html ⟨0, 29⟩ none [] []]⟩
  recording :=
    { nodes :=
      [(.identifier "a", ⟨0, 1⟩), (.expressionStatement 0, ⟨0, 3⟩), (.emptyStatement, ⟨5, 6⟩),
        (.program .module [1, 2], ⟨0, 6⟩)]
      program := 3
      tokens := [(.identifier, "a", ⟨0, 1⟩), (.punctuator, ";", ⟨2, 3⟩), (.punctuator, ";", ⟨5, 6⟩)]
      comments := []
      scopes :=
      [.addScope .global 3 none, .addScope .module 3 (some 0), .addReference 1 0 "a" .read false,
        .resolve 0] }

theorem Sample.nested_restored : ∃ r, nested.restored = .ok r ∧ nested.parsed.2.program = 4 ∧
    r.arena.kind 4 = .program .module [0, 2] ∧ r.arena.range 4 = ⟨0, 14⟩ ∧
    contentRanges r.arena.range [0, 2] r.tokens r.comments =
      [[⟨0, 29⟩, ⟨13, 14⟩], [⟨13, 14⟩], []] := by
  have hrestored :
    (nested.restored.toOption.map fun r => (nested.parsed.2.program, r.arena.kind 4,
      r.arena.range 4, contentRanges r.arena.range [0, 2] r.tokens r.comments)) =
      some (4, .program .module [0, 2], ⟨0, 14⟩, [[⟨0, 29⟩, ⟨13, 14⟩], [⟨13, 14⟩], []]) := by
    cbv
  obtain ⟨r, hr, hshown⟩ := restored_shows hrestored
  exact ⟨r, hr, by simpa only [Prod.mk.injEq] using hshown⟩

theorem restore_spans_content_nested : ∃ r, nested.restored = .ok r ∧
    ∀ l ∈ contentRanges r.arena.range [0, 2] r.tokens r.comments, ∀ x ∈ l,
      (r.arena.range 4).start ≤ x.start ∧
      ((r.arena.range 4).contains x = true ↔ ¬ ((r.arena.range 4).start < x.stop ∧
        x.Outlasts (contentRanges r.arena.range [0, 2] r.tokens r.comments))) := by
  obtain ⟨r, hr, hprog, hkind, -, -⟩ := nested_restored
  have hspans := restore_spans_content hr (hprog ▸ hkind) (by simp)
  rw [hprog] at hspans
  exact ⟨r, hr, fun l hl x hx => ⟨hspans.1 l hl x hx, hspans.2.2 l hl x hx⟩⟩

/-- The program ends with its last statement, which is inside of the element. -/
theorem nested_outlasts_program : nested.document.rangeFault? nested.source = none ∧
    ∃ r, nested.restored = .ok r ∧ r.arena.kind 4 = .program .module [0, 2] ∧
      (r.arena.range 4).contains (r.arena.range 0) = false := by
  obtain ⟨r, hr, -, hkind, hrange, hcontent⟩ := nested_restored
  have helement : r.arena.range 0 = ⟨0, 29⟩ := by
    simp only [contentRanges, map_cons, List.cons.injEq] at hcontent
    exact hcontent.1.1
  refine ⟨by cbv, r, hr, hkind, ?_⟩
  rw [hrange, helement]
  decide

end Loom
