import Loom.Proofs.Restore.Gather
import Loom.Proofs.Restore.Trace

/-!
No token or comment on copied text is lost, and where the restored ones come from.

An item that starts in one copied part and ends in another is restored when both parts are at the
same distance from their source. Such an item holds scaffolding, and is the only one that does.
-/

open List

namespace Loom

open VirtualScript Ranged Text Sample

/-- Statements strictly inside the range of a node are below it. -/
def Arena.Enclosing (h : Arena) (program : NodeId) : Prop :=
  ∀ x y, h.Below program x → h.Below program y → (h.range x).start < (h.range y).start →
    (h.range y).stop < (h.range x).stop → h.Below x y

theorem Arena.Enclosing.of_nodes {h : Arena} {program : NodeId} (nodes : List NodeId)
    (hprog : program ∈ nodes) (hclosed : ∀ x ∈ nodes, ∀ c ∈ h.children x, c ∈ nodes)
    (hnodes : ∀ x ∈ nodes, ∀ y ∈ nodes, (h.range x).start < (h.range y).start →
      (h.range y).stop < (h.range x).stop → y ∈ h.descendants x) : h.Enclosing program := by
  intro x y hx hy hstart hstop
  refine Arena.below_of_mem_within (hnodes x ?_ y ?_ hstart hstop)
  · exact Arena.mem_of_below hprog hclosed hx
  · exact Arena.mem_of_below hprog hclosed hy

/-- The items on copied text are kept, each once: moved to the source, otherwise unchanged, and in
order. -/
structure VirtualScript.Keeps {α : Type} [Ranged α] (v : VirtualScript) (coords : Coordinates)
    (items restored : List α) : Prop where
  fates : ∃ f : α → Option α, restored.Perm (items.filterMap f) ∧
    (∀ x y, f x = some y → ∃ r, y = place x r coords) ∧
    ∀ x, ∀ b ∈ v.breakpoints, b.generated ≤ Cursor.start x → Cursor.start x < Cursor.stop x →
      Cursor.stop x ≤ b.stop →
      f x = some (place x ⟨b.toSource (Cursor.start x), b.toSource (Cursor.stop x)⟩ coords)
  sorted : restored.Pairwise fun x y => Cursor.start x ≤ Cursor.start y

namespace VirtualScript

variable {v : VirtualScript} {coords : Coordinates} {ts : List Task} {α : Type} [Ranged α] {x y : α}

theorem spot?_eq_some {t : Task} (h : t.spot? coords x = some y) :
    ∃ f ∈ t.fragments, f.generated.contains (range x) = true ∧
      y = place x ((range x).shifted f.delta) coords := by
  obtain ⟨f, hfind, rfl⟩ := Option.map_eq_some_iff.mp h
  have hinside := find?_some hfind
  exact ⟨f, mem_of_find?_eq_some hfind, hinside, rfl⟩

theorem leftover?_eq_some (h : v.leftover? coords x = some y) :
    ∃ start stop, v.mapStart (Cursor.start x) = some start ∧ v.mapEnd (Cursor.stop x) = some stop ∧
      start ≤ stop ∧ stop - start = (range x).length ∧ y = place x ⟨start, stop⟩ coords := by
  obtain ⟨start, hstart, h⟩ := Option.bind_eq_some_iff.mp h
  obtain ⟨stop, hstop, h⟩ := Option.bind_eq_some_iff.mp h
  split at h
  case isTrue => cases h
  rename_i hok
  simp only [Bool.or_eq_true, decide_eq_true_eq, not_or, Decidable.not_not, not_lt] at hok
  cases h
  exact ⟨start, stop, hstart, hstop, hok.1, hok.2, rfl⟩

theorem place_of_fate (h : v.fate coords ts x = some y) : ∃ r, y = place x r coords := by
  unfold fate at h
  split at h
  · obtain ⟨f, -, -, rfl⟩ := spot?_eq_some h
    exact ⟨_, rfl⟩
  · obtain ⟨start, stop, -, -, -, -, rfl⟩ := leftover?_eq_some h
    exact ⟨_, rfl⟩

end VirtualScript

/-- Wrappers are undone inside out when the statements strictly inside of a node are below it. -/
theorem inward_of_order {h : Arena} {program : NodeId} {tasks : List Task}
    {ps : List (Task × NodeId)} (henc : h.Enclosing program)
    (hps : ∀ p ∈ ps, p.1 ∈ tasks ∧ h.StandsFor program p.1 p.2 ∧ p.2 ≠ program)
    (horder : ps.Pairwise fun p q => ¬ h.Below p.2 q.2) : Inward (ps.map Prod.fst) := by
  refine pairwise_map.mpr (horder.imp_of_mem fun {p q} hp hq hbelow => ?_)
  obtain ⟨-, hp, -⟩ := hps p hp
  obtain ⟨-, hq, -⟩ := hps q hq
  rw [← hp.range, ← hq.range]
  rintro ⟨hstart, hstop⟩
  exact hbelow (henc p.2 q.2 hp.below hq.below hstart hstop)

theorem Layout.keeps {source : Text} {woven : Woven} {scripts : List Fragment} {ts : List Task}
    {α : Type} [Ranged α]
    (hlayout : Layout source woven scripts) (hsource : byteSize source < Range.wordModulus)
    (hperm : ts.Perm woven.script.tasks) (hinward : Inward ts) (items : List α) :
    woven.script.Keeps (.ofText source) items (woven.script.collect (.ofText source) ts items) := by
  refine ⟨⟨woven.script.fate (.ofText source) ts, woven.script.collect_perm _ _ items, ?_, ?_⟩,
    Cursor.sortByStart_sorted _⟩
  · exact fun x y hfate => place_of_fate hfate
  · exact fun x b hb hstart hlt hstop => hlayout.fate_copied hsource hperm hinward hb hstart hlt
      hstop

/-- A successful restore loses no token and no comment on copied text. -/
theorem restore_keeps_items {source : Text} {d : Template.Document} {h : Arena}
    {scopes : ScopeGraph}
    {program : NodeId} {tokens : List Token} {comments : List Comment} {r : Restored}
    (hd : d.rangeFault? source = none) (hsource : byteSize source < Range.wordModulus)
    (hrooted : h.Rooted program)
    (hfresh : ∀ x, h.Below program x → (weave (.ofText source) d .empty).arena.size ≤ x)
    (henc : h.Enclosing program)
    (hok : restore (.ofText source) (weave (.ofText source) d .empty).script h scopes program tokens
      comments (weave (.ofText source) d .empty).roots = .ok r) :
    (weave (.ofText source) d .empty).script.Keeps (.ofText source) tokens r.tokens ∧
      (weave (.ofText source) d .empty).script.Keeps (.ofText source) comments r.comments := by
  obtain ⟨scripts, hlayout⟩ := weave_layout hd
  obtain ⟨s, w, hwalk, hempty, -, -, -, htokens, hcomments⟩ := restore_eq_ok hok
  obtain ⟨ps, hperm, hps, horder, hgathered, -⟩ :=
    Restorer.undoAll_of_walkAll hrooted hfresh hlayout hwalk hempty
  obtain ⟨htokens', hcomments'⟩ := hgathered.collect htokens hcomments
  have hinward := inward_of_order henc hps horder
  rw [htokens', hcomments']
  exact ⟨hlayout.keeps hsource hperm hinward tokens, hlayout.keeps hsource hperm hinward comments⟩

theorem restore_keeps_items_conditional : ∃ r, conditional.restored = .ok r ∧
    conditional.woven.script.Keeps (.ofText conditional.source) conditional.parsed.2.tokens
      r.tokens ∧
    conditional.woven.script.Keeps (.ofText conditional.source) conditional.parsed.2.comments
      r.comments := by
  obtain ⟨r, hr⟩ := restored_ok conditional_restored
  have henc : conditional.parsed.1.Enclosing conditional.parsed.2.program :=
    .of_nodes [2, 3, 4, 5, 6, 7, 8] (by decide +kernel) (by decide +kernel) (by decide +kernel)
  have ht := conditional_hostTree
  exact ⟨r, hr, restore_keeps_items (by decide) (by decide) ht.toRooted ht.fresh henc hr⟩

/-- The conditional, parsed by a host that puts the inner statement beside the outer one. -/
def Sample.overlapping : Sample where
  source := conditional.source
  document := conditional.document
  recording :=
    { conditional.recording with
      nodes := [(.identifier "a", ⟨4, 5⟩), (.blockStatement [], ⟨7, 15⟩),
        (.ifStatement 0 1 none, ⟨0, 15⟩),
        (.identifier "b", ⟨10, 11⟩), (.expressionStatement 3, ⟨9, 13⟩), (.emptyStatement, ⟨17, 18⟩),
        (.program .module [2, 4, 5], ⟨0, 18⟩)]
      scopes := [.addScope .global 6 none, .addScope .module 6 (some 0)] }

/-- When a statement overlaps a later one, it takes the tokens of that one with it. -/
theorem overlapping_loses_token :
    HostTree overlapping.woven.arena overlapping.parsed.1 overlapping.parsed.2.program ∧
    ∃ r, overlapping.restored = .ok r ∧ ∃ x ∈ overlapping.parsed.2.tokens,
      ∃ b ∈ overlapping.woven.script.breakpoints,
      b.generated ≤ x.range.start ∧ x.range.start < x.range.stop ∧ x.range.stop ≤ b.stop ∧
        ∀ y ∈ r.tokens, y.value ≠ x.value := by
  have htokens : (overlapping.restored.toOption.map fun r => r.tokens.map Token.value) =
      some ["a"] := by
    cbv
  obtain ⟨r, hr, htokens⟩ := restored_shows htokens
  refine ⟨?_, r, hr, Token.at (.ofText overlapping.woven.script.text) .identifier "b" ⟨10, 11⟩, ?_,
    ⟨8, 10, 1⟩, ?_, by decide, by decide, by decide, ?_⟩
  · exact .of_nodes [2, 3, 4, 5, 6, 7, 8] (by decide +kernel) (Recording.node_play _ _ _)
      (by decide +kernel) (by decide +kernel)
  · decide +kernel
  · decide +kernel
  · intro y hy
    have hvalue : y.value ∈ r.tokens.map Token.value := mem_map_of_mem hy
    rw [htokens, mem_singleton] at hvalue
    rw [hvalue]
    decide

/-! Where restored items come from, whatever the host does. -/

/-- How a restored range `r` comes from the range `g` of the virtual script. -/
inductive VirtualScript.Origin (v : VirtualScript) (source : Text) (g r : Range) : Prop
  /-- All of it is one copied text. -/
  | copied (b : Breakpoint) (mem : b ∈ v.breakpoints) (start : b.generated ≤ g.start)
    (stop : g.stop ≤ b.stop) (range : r = ⟨b.toSource g.start, b.toSource g.stop⟩)
    (text : slice? source r = slice? v.text g)
  /-- It is an empty fragment. -/
  | blank (f : Fragment) (mem : f ∈ taskFragments v.tasks) (generated : f.generated = g)
    (empty : g.start = g.stop) (range : r = f.source)
  /-- It reaches from one copied text over scaffolding to another one that is equally far from its
  source. -/
  | bridged (b b' : Breakpoint) (mem : b ∈ v.breakpoints) (mem' : b' ∈ v.breakpoints)
    (start : b.generated ≤ g.start) (start_lt : g.start < b.stop) (gap : b.stop < b'.generated)
    (lt_stop : b'.generated < g.stop) (stop : g.stop ≤ b'.stop)
    (shift : b.source + b'.generated = b'.source + b.generated)
    (range : r = ⟨b.toSource g.start, b'.toSource g.stop⟩)

theorem Fragment.Copied.stop_le {f : Fragment} {source text : Text} (h : f.Copied source text) :
    f.generated.stop ≤ byteSize text := by
  obtain ⟨part, -, htext⟩ := h
  obtain ⟨hle, pre, post, rfl, hpre, hsize⟩ := slice?_eq_some.mp htext
  simp only [byteSize_append]
  omega

namespace Layout

variable {source : Text} {woven : Woven} {scripts : List Fragment} {f : Fragment}
  {b b' : Breakpoint} {g : Range}

variable (h : Layout source woven scripts) (hsource : byteSize source < Range.wordModulus)

include h hsource

/-- A part of one copied text comes from its source. -/
theorem origin_copied (hb : b ∈ woven.script.breakpoints) (hstart : b.generated ≤ g.start)
    (hord : g.start ≤ g.stop) (hstop : g.stop ≤ b.stop) :
    woven.script.Origin source g ⟨b.toSource g.start, b.toSource g.stop⟩ := by
  refine .copied b hb hstart hstop rfl ?_
  obtain ⟨f, hf, hlt, rfl⟩ := (h.breakpoints b).mp hb
  rw [Fragment.breakpoint_stop hlt.le] at hstop
  have hinside : f.generated.contains g = true := by
    rw [Range.contains_iff]
    exact ⟨hstart, hstop⟩
  rw [← (h.copied f hf).shifted_eq hsource hinside hord]
  exact ((h.copied f hf).image hsource hinside hord).text

theorem origin_fragment (hf : f ∈ taskFragments woven.script.tasks)
    (hinside : f.generated.contains g = true)
    (hord : g.start ≤ g.stop) : woven.script.Origin source g (g.shifted f.delta) := by
  have hmem := mem_append_right scripts hf
  have hcopied := h.copied f hmem
  rw [hcopied.shifted_eq hsource hinside hord]
  have hinside' := hinside
  rw [Range.contains_iff] at hinside'
  by_cases hproper : f.generated.start < f.generated.stop
  · refine h.origin_copied hsource ((h.breakpoints _).mpr ⟨f, hmem, hproper, rfl⟩) hinside'.1 hord
      ?_
    rw [Fragment.breakpoint_stop hproper.le]
    exact hinside'.2
  · have hsizes := hcopied.sizes
    obtain ⟨a, b⟩ := g
    refine .blank f hf ?_ (by omega) ?_
    · cases hg : f.generated
      simp only [hg, Range.mk.injEq] at *
      omega
    · cases hs : f.source
      simp only [hs, Fragment.breakpoint, Breakpoint.toSource, Range.mk.injEq] at *
      omega

/-- What is mapped by its two ends is one copied text, or reaches from one to another. -/
theorem origin_ends {start stop : Nat} (hscript : byteSize woven.script.text < Range.wordModulus)
    (hord : g.start ≤ g.stop) (hstart : woven.script.mapStart g.start = some start)
    (hstop : woven.script.mapEnd g.stop = some stop) (hle : start ≤ stop)
    (hlength : stop - start = g.length) : woven.script.Origin source g ⟨start, stop⟩ := by
  obtain ⟨b, hb, hb1, hb2, rfl⟩ := mapStart_eq_some hstart
  obtain ⟨b', hb', hb1', hb2', rfl⟩ := mapEnd_eq_some hstop
  by_cases hsame : b = b'
  · subst hsame
    exact h.origin_copied hsource hb hb1 hord hb2'
  have hgap : b.stop < b'.generated := by
    by_contra hlt
    exact hsame (h.breakpoint_eq hb hb' (by omega) (by omega))
  have hend : b'.stop ≤ byteSize woven.script.text := by
    obtain ⟨f, hf, hlt, rfl⟩ := (h.breakpoints b').mp hb'
    rw [Fragment.breakpoint_stop hlt.le]
    exact (h.copied f hf).stop_le
  have hword : (g.length : Int) = g.stop - g.start := Range.toWord_of_lt (by omega) (by omega)
  refine .bridged b b' hb hb' hb1 hb2 hgap hb1' hb2' ?_ rfl
  simp only [Breakpoint.toSource] at hle hlength
  omega

theorem origin_of_fate {α : Type} [Ranged α] {x y : α} {ts : List Task} {coords : Coordinates}
    (hscript : byteSize woven.script.text < Range.wordModulus) (hperm : ts.Perm woven.script.tasks)
    (hord : Cursor.start x ≤ Cursor.stop x) (hfate : woven.script.fate coords ts x = some y) :
    ∃ r, y = place x r coords ∧ woven.script.Origin source (range x) r := by
  unfold fate at hfate
  split at hfate
  · rename_i t hfind
    have ht := hperm.mem_iff.mp (mem_of_find?_eq_some hfind)
    obtain ⟨f, hf, hinside, rfl⟩ := spot?_eq_some hfate
    exact ⟨_, rfl, h.origin_fragment hsource (mem_taskFragments.mpr ⟨t, ht, hf⟩) hinside hord⟩
  · obtain ⟨start, stop, hstart, hstop, hle, hlength, rfl⟩ := leftover?_eq_some hfate
    exact ⟨_, rfl, h.origin_ends hsource hscript hord hstart hstop hle hlength⟩

end Layout

/-- The restored items `restored` come from `items`. -/
def VirtualScript.Yields {α : Type} [Ranged α] (v : VirtualScript) (source : Text)
    (items restored : List α) : Prop :=
  ∀ y ∈ restored, ∃ x ∈ items, ∃ r, y = place x r (.ofText source) ∧ v.Origin source (range x) r

/-- Every restored token and comment is one copied text, or holds scaffolding between two copied
texts that are equally far from their sources. -/
theorem restore_items_origin {source : Text} {d : Template.Document} {h : Arena}
    {scopes : ScopeGraph}
    {program : NodeId} {tokens : List Token} {comments : List Comment} {r : Restored}
    (hd : d.rangeFault? source = none) (hsource : byteSize source < Range.wordModulus)
    (hscript : byteSize (weave (.ofText source) d .empty).script.text < Range.wordModulus)
    (htokens : ∀ x ∈ tokens, x.range.start ≤ x.range.stop)
    (hcomments : ∀ x ∈ comments, x.range.start ≤ x.range.stop)
    (hok : restore (.ofText source) (weave (.ofText source) d .empty).script h scopes program tokens
      comments (weave (.ofText source) d .empty).roots = .ok r) :
    (weave (.ofText source) d .empty).script.Yields source tokens r.tokens ∧
      (weave (.ofText source) d .empty).script.Yields source comments r.comments := by
  obtain ⟨scripts, hlayout⟩ := weave_layout hd
  obtain ⟨us, hperm, -, -, htokens', hcomments'⟩ := restore_traced hok
  rw [htokens', hcomments']
  constructor
  · intro y hy
    obtain ⟨x, hx, hfate⟩ := mem_filterMap.mp ((collect_perm ..).mem_iff.mp hy)
    exact ⟨x, hx, hlayout.origin_of_fate hsource hscript hperm (htokens x hx) hfate⟩
  · intro y hy
    obtain ⟨x, hx, hfate⟩ := mem_filterMap.mp ((collect_perm ..).mem_iff.mp hy)
    exact ⟨x, hx, hlayout.origin_of_fate hsource hscript hperm (hcomments x hx) hfate⟩

/-- A template literal that one script block opens and the next one closes. -/
def Sample.bridge : Sample where
  source := "`aXYZb`".toList
  document := ⟨[⟨⟨0, 2⟩, false, none⟩, ⟨⟨5, 7⟩, false, none⟩], []⟩
  recording :=
    { nodes := [(.templateElement "a\n;\nb" (some "a\n;\nb") true, ⟨1, 6⟩),
        (.templateLiteral [0] [], ⟨0, 7⟩), (.expressionStatement 1, ⟨0, 9⟩),
        (.emptyStatement, ⟨11, 12⟩), (.program .module [2, 3], ⟨0, 12⟩)]
      program := 4
      tokens := [(.template, "`a\n;\nb`", ⟨0, 7⟩), (.punctuator, ";", ⟨8, 9⟩),
        (.punctuator, ";", ⟨11, 12⟩)]
      comments := []
      scopes := [.addScope .global 4 none, .addScope .module 4 (some 0)] }

theorem restore_items_origin_bridge : ∃ r, bridge.restored = .ok r ∧
    bridge.woven.script.Yields bridge.source bridge.parsed.2.tokens r.tokens ∧
    bridge.woven.script.Yields bridge.source bridge.parsed.2.comments r.comments := by
  obtain ⟨r, hr⟩ := restored_ok (s := bridge) (by cbv)
  have hsize : byteSize bridge.woven.script.text = 12 := by cbv
  refine ⟨r, hr, restore_items_origin (by decide) (by decide) ?_ (by decide +kernel)
    (by decide +kernel) hr⟩
  exact hsize ▸ (by decide)

/-- The restored literal has the scaffolding between the blocks in it: its text is not that of the
source. -/
theorem bridge_keeps_scaffolding : ∃ r, bridge.restored = .ok r ∧
    ∃ y ∈ r.tokens, y.value = "`a\n;\nb`" ∧
      slice? bridge.source y.range ≠ some y.value.toList ∧
      ∀ b ∈ bridge.woven.script.breakpoints, ¬ (b.generated ≤ 0 ∧ 7 ≤ b.stop) := by
  have htokens : (bridge.restored.toOption.map fun r => r.tokens.map fun y => (y.value, y.range)) =
      some [("`a\n;\nb`", ⟨0, 7⟩)] := by
    cbv
  obtain ⟨r, hr, htokens⟩ := restored_shows htokens
  obtain ⟨y, hy, heq⟩ : ∃ y ∈ r.tokens, (y.value, y.range) = ("`a\n;\nb`", ⟨0, 7⟩) :=
    mem_map.mp (htokens ▸ mem_singleton_self _)
  obtain ⟨hvalue, hrange⟩ := Prod.mk.inj heq
  have hbreaks : bridge.woven.script.breakpoints = [⟨0, 0, 2⟩, ⟨5, 5, 2⟩] := by cbv
  refine ⟨r, hr, y, hy, hvalue, ?_, by rw [hbreaks]; decide⟩
  rw [hvalue, hrange]
  decide +kernel

end Loom
