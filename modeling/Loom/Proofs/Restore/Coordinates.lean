import Loom.Host.Recording
import Loom.Proofs.Restore.Finish
import Mathlib

/-!
Coordinates of restored nodes. Every planned slot holds the node that its fragment became, and the
nodes below it stand in the source where the fragment was copied from, byte by byte.
-/

open List

namespace Loom

open Text Match

theorem Range.toWord_of_lt {n : Int} (hnonneg : 0 ≤ n) (hlt : n < (wordModulus : Int)) :
    (Range.toWord n : Int) = n := by
  unfold toWord
  rw [Int.emod_eq_of_lt hnonneg hlt]
  omega

/-- The part `g` of the copy of a fragment comes from `r`: both have the same distance from the
start, and the same text. -/
structure Fragment.Image (f : Fragment) (source text : Text) (g r : Range) : Prop where
  inside : f.source.contains r = true
  start : (r.start : Int) = g.start - f.delta
  stop : (r.stop : Int) = g.stop - f.delta
  length : r.length = g.length
  text : slice? source r = slice? text g

namespace Fragment

variable {f : Fragment} {source text : Text} {g : Range}

theorem Copied.sizes (h : f.Copied source text) :
    f.source.start ≤ f.source.stop ∧ f.source.stop ≤ byteSize source ∧
      f.source.stop - f.source.start = f.generated.stop - f.generated.start := by
  obtain ⟨part, hsource, htext⟩ := h
  obtain ⟨hle, pre, post, rfl, hpre, hsize⟩ := slice?_eq_some.mp hsource
  obtain ⟨-, pre', post', rfl, hpre', hsize'⟩ := slice?_eq_some.mp htext
  simp only [byteSize_append]
  omega

/-- Moving a part of a copy back by the distance of its fragment leads to where it was copied
from. -/
theorem Copied.image (h : f.Copied source text) (hsource : byteSize source < Range.wordModulus)
    (hinside : f.generated.contains g = true) (hord : g.start ≤ g.stop) :
    f.Image source text g (g.shifted f.delta) := by
  have hsizes := h.sizes
  rw [Range.contains_iff] at hinside
  have hdelta : f.delta = f.generated.start - f.source.start := rfl
  have hstart : (g.shifted f.delta).start = g.start - f.delta :=
    Range.toWord_of_lt (by omega) (by omega)
  have hstop : (g.shifted f.delta).stop = g.stop - f.delta :=
    Range.toWord_of_lt (by omega) (by omega)
  refine ⟨?_, hstart, hstop, ?_, ?_⟩
  · rw [Range.contains_iff]
    omega
  · unfold Range.length
    congr 1
    omega
  · obtain ⟨part, hpart, hpart'⟩ := h
    obtain ⟨hle, pre, post, rfl, hpre, hsize⟩ := slice?_eq_some.mp hpart
    obtain ⟨-, pre', post', rfl, hpre', hsize'⟩ := slice?_eq_some.mp hpart'
    -- Both are the same part of the copied text.
    refine slice?_shared (a := g.start - f.generated.start) (b := g.stop - f.generated.start) ?_ ?_
      ?_ ?_ ?_ <;> omega

end Fragment

/-! Slots. -/

theorem filter_eq_singleton {α : Type} {p : α → Bool} {l : List α} {x : α} (hx : x ∈ l)
    (hp : p x = true) (h : l.Pairwise fun y z => ¬ (p y = true ∧ p z = true)) :
    l.filter p = [x] := by
  induction l with
  | nil => cases hx
  | cons y l ih =>
    rw [pairwise_cons] at h
    rcases mem_cons.mp hx with rfl | hx
    · rw [filter_cons_of_pos hp, filter_eq_nil_iff.mpr fun z hz hpz => h.1 z hz ⟨hp, hpz⟩]
    · rw [filter_cons_of_neg fun hpy => h.1 x hx ⟨hpy, hp⟩, ih hx h.2]

section Filled

variable {source : Text} {woven : Woven} {scripts : List Fragment} {h : Arena} {program : NodeId}
  {w : Workbench} {done : List Match} {m : Match}

namespace Standing

variable {p : Fragment × NodeId}

theorem foldl_holdMore_param (before nodes : List NodeId) :
    nodes.foldl (Kind.holdMore .param) before = before ++ nodes := by
  induction nodes generalizing before with
  | nil => simp
  | cons n nodes ih => simp [Kind.holdMore, ih]

/-- The nodes for the slot of a fragment are those of its own task. -/
theorem slot_pairs (hdone : done.Pairwise fun m m' => m.task.SlotsApart m'.task) (hm : m ∈ done)
    (hp : p ∈ m.pairs) :
    ((slotsOf p.1.owner (done.flatMap pairs)).filter (·.1 = p.1.field)).map Prod.snd =
      (m.pairs.filter (·.1.slot = p.1.slot)).map Prod.snd := by
  have hsame : ∀ ps : List (Fragment × NodeId),
      ((slotsOf p.1.owner ps).filter (·.1 = p.1.field)).map Prod.snd =
        (ps.filter (·.1.slot = p.1.slot)).map Prod.snd := by
    intro ps
    rw [slotsOf, filter_map]
    simp [Fragment.slot, Prod.ext_iff, Bool.and_comm]
  rw [hsame]
  obtain ⟨before, after, rfl⟩ := append_of_mem hm
  rw [pairwise_append, pairwise_cons] at hdone
  have hnone : ∀ ms : List Match, (∀ m' ∈ ms, m'.task.SlotsApart m.task) →
      (ms.flatMap pairs).filter (fun q => decide (q.1.slot = p.1.slot)) = [] := by
    intro ms hms
    rw [filter_eq_nil_iff]
    intro q hq heq
    obtain ⟨m', hm', hq⟩ := mem_flatMap.mp hq
    exact hms m' hm' q.1 (mem_pairs hq).1 p.1 (mem_pairs hp).1 (of_decide_eq_true heq)
  rw [flatMap_append, flatMap_cons, filter_append, filter_append,
    hnone before fun m' hm' => hdone.2.2 m' hm' m mem_cons_self,
    hnone after fun m' hm' => (hdone.2.1.1 m' hm').symm, nil_append, append_nil]

/-- A slot of a markup node holds the nodes that its fragments became. -/
theorem held_eq (s : Standing source woven scripts h program w done)
    (hforest : Forest woven.arena woven.roots)
    (hdone : done.Pairwise fun m m' => m.task.SlotsApart m'.task) (hm : m ∈ done)
    (hp : p ∈ m.pairs) :
    (w.arena.kind p.1.owner).held p.1.field = (m.pairs.filter (·.1.slot = p.1.slot)).map Prod.snd ∧
      (p.1.field ≠ .param → (w.arena.kind p.1.owner).held p.1.field = [p.2]) := by
  have htask := s.task m hm
  have howner := s.layout.owner_lt p.1 (mem_taskFragments.mpr ⟨m.task, htask, (mem_pairs hp).1⟩)
  have hblank : (h.kind p.1.owner).held p.1.field = [] := by
    rw [Arena.kind, s.host.kept _ howner]
    exact hforest.blank _ howner _
  have hheld := Kind.held_fill p.1.field (s.markup p.1.owner howner)
  rw [hblank, ← foldl_map, slot_pairs hdone hm hp] at hheld
  by_cases hfield : p.1.field = .param
  · refine ⟨?_, absurd hfield⟩
    rw [hheld, hfield, foldl_holdMore_param, nil_append]
  · -- The slot is for this fragment alone.
    have hown : m.pairs.Pairwise fun q q' => ¬ (decide (q.1.slot = p.1.slot) = true ∧
        decide (q'.1.slot = p.1.slot) = true) := by
      have hfst : (m.pairs.map Prod.fst).Pairwise fun f f' => f.slot = f'.slot → f.field = .param := by
        rw [pairs, map_fst_zip (s.shape m hm).length.symm.le]
        exact (s.layout.ownSlots m.task htask).apart
      rw [pairwise_map] at hfst
      refine hfst.imp fun {q q'} himp hboth => ?_
      have hq := of_decide_eq_true hboth.1
      have hparam := himp (hq.trans (of_decide_eq_true hboth.2).symm)
      exact hfield ((congrArg Prod.snd hq).symm.trans hparam)
    rw [filter_eq_singleton hp (decide_eq_true rfl) hown] at hheld ⊢
    have hsingle : (w.arena.kind p.1.owner).held p.1.field = [p.2] := by
      rw [hheld]
      simp [Kind.holdMore, hfield]
    exact ⟨hsingle, fun _ => hsingle⟩

end Standing

/-- The statement `n` stands for the wrapper of a task: the slots hold the nodes `targets` for the
fragments, and everything below those stands in the source where it was copied from. -/
structure Task.Filled (t : Task) (source text : Text) (h : Arena) (program : NodeId) (a : Arena)
    (n : NodeId) (targets : List NodeId) : Prop where
  below : h.Below program n
  range : h.range n = t.range
  shape : t.targets? a n = some targets
  length : targets.length = t.fragments.length
  held : ∀ p ∈ t.fragments.zip targets, (a.kind p.1.owner).held p.1.field =
    ((t.fragments.zip targets).filter (·.1.slot = p.1.slot)).map Prod.snd
  /-- Only parameters share a slot. -/
  alone : ∀ p ∈ t.fragments.zip targets, p.1.field ≠ .param →
    (a.kind p.1.owner).held p.1.field = [p.2]
  image : ∀ p ∈ t.fragments.zip targets, ∀ y, h.Below p.2 y →
    p.1.Image source text (h.range y) (a.range y)
  loc : ∀ p ∈ t.fragments.zip targets, ∀ y, h.Below p.2 y →
    a.loc y = (Coordinates.ofText source).location (a.range y)

variable {tokens : List Token} {comments : List Comment} {r : Restored}

variable (o : Outcome source woven scripts h program tokens comments r w done)

include o

theorem Outcome.shape (hm : m ∈ done) : m.task.Shape r.arena m.node m.targets := by
  refine (o.standing.shape m hm).congr fun x hx _ => o.finished.kind x ?_
  rintro rfl
  exact o.standing.node_ne hm (o.standing.below_host (o.standing.node_below hm) hx)

/-- Every wrapper that was undone has filled its slots. -/
theorem Outcome.filled (hsource : byteSize source < Range.wordModulus) (hm : m ∈ done) :
    m.task.Filled source woven.script.text h program r.arena m.node m.targets := by
  have hs := o.standing
  have hshape := o.shape hm
  have hfrag : ∀ {p}, p ∈ m.pairs → p.1 ∈ taskFragments woven.script.tasks := fun hp =>
    mem_taskFragments.mpr ⟨m.task, hs.task m hm, (mem_pairs hp).1⟩
  have howner : ∀ p ∈ m.pairs, r.arena.kind p.1.owner = w.arena.kind p.1.owner := by
    intro p hp
    refine o.finished.kind _ ?_
    intro heq
    have hlt := hs.layout.owner_lt p.1 (hfrag hp)
    rw [heq] at hlt
    exact absurd hlt (not_lt.mpr (hs.host.fresh program .refl))
  have hdone := pairwise_map.mp (hs.layout.slots.perm o.tasks.symm Task.SlotsApart.symm)
  have hheld : ∀ p ∈ m.pairs, _ := fun p hp => hs.held_eq o.forest hdone hm hp
  -- The nodes below a target were moved once, and nothing moved them later.
  have hplaced : ∀ p ∈ m.pairs, ∀ y, h.Below p.2 y → h.Below program y ∧
      r.arena.range y = (h.range y).shifted p.1.delta ∧
        r.arena.loc y = (Coordinates.ofText source).location (r.arena.range y) := by
    intro p hp y hy
    have htarget := (hs.target_below hm (mem_pairs hp).2).1.trans hy
    have hprog : y ≠ program := by
      rintro rfl
      exact hs.node_ne hm htarget
    have hvis : y ∈ w.visited := (hs.visited y).mpr ⟨m, hm, p.2, (mem_pairs hp).2, hy⟩
    obtain ⟨hrange, hloc⟩ := o.finished.still y hprog (.inl hvis)
    obtain ⟨hmoved, hmovedLoc⟩ := hs.moved m hm p hp y hy
    exact ⟨(hs.node_below hm).trans htarget, hrange.trans hmoved, by rw [hloc, hmovedLoc, hrange]⟩
  constructor
  case below => exact hs.node_below hm
  case range => exact hs.range m hm
  case shape => exact Task.targets?_eq_some.mpr hshape
  case length => exact hshape.length
  case held =>
    intro p hp
    rw [howner p hp]
    exact (hheld p hp).1
  case alone =>
    intro p hp hfield
    rw [howner p hp]
    exact (hheld p hp).2 hfield
  case image =>
    intro p hp y hy
    obtain ⟨hbelow, hrange, -⟩ := hplaced p hp y hy
    have hcopied := hs.layout.copied p.1 (mem_append_right _ (hfrag hp))
    have hinside : p.1.generated.contains (h.range y) = true := by
      have htarget := hs.inside m hm p hp
      have hnested := hs.host.contains_of_below
        ((hs.node_below hm).trans (hs.target_below hm (mem_pairs hp).2).1) hy
      rw [Range.contains_iff] at htarget ⊢
      omega
    rw [hrange]
    exact hcopied.image hsource hinside (hs.host.ordered y hbelow)
  case loc => exact fun p hp y hy => (hplaced p hp y hy).2.2

end Filled

/-- After a successful restore every fragment of every wrapper is in its slot, at its place in the
source. -/
theorem restore_fills_slots {source : Text} {d : Template.Document} {h : Arena}
    {scopes : ScopeGraph}
    {program : NodeId} {tokens : List Token} {comments : List Comment} {r : Restored}
    (hd : d.rangeFault? source = none) (hsource : byteSize source < Range.wordModulus)
    (ht : HostTree (weave (.ofText source) d .empty).arena h program)
    (hok : restore (.ofText source) (weave (.ofText source) d .empty).script h scopes program tokens
      comments (weave (.ofText source) d .empty).roots = .ok r) :
    ∀ t ∈ (weave (.ofText source) d .empty).script.tasks, ∃ n targets,
      t.Filled source (weave (.ofText source) d .empty).script.text h program r.arena n targets := by
  intro t htask
  obtain ⟨scripts, w, done, o, -⟩ := restore_reconciled hd ht hok
  obtain ⟨m, hm, rfl⟩ := mem_map.mp (o.tasks.mem_iff.mpr htask)
  exact ⟨m.node, m.targets, o.filled hsource hm⟩

/-! Recorded parses. -/

theorem Kind.childIds_shift {base : Nat} {k : Kind} {c : NodeId}
    (hc : c ∈ (k.mapSlots (.shift base)).childIds) : base ≤ c := by
  rw [mem_childIds, slots_mapSlots] at hc
  obtain ⟨s, hs, hmem⟩ := hc
  obtain ⟨s, -, rfl⟩ := mem_map.mp hs
  cases s with
  | one id =>
    obtain rfl := mem_singleton.mp hmem
    exact Nat.le_add_right ..
  | opt id =>
    obtain ⟨x, -, rfl⟩ := Option.map_eq_some_iff.mp (Option.mem_toList.mp hmem)
    exact Nat.le_add_right ..
  | many ids =>
    obtain ⟨x, -, rfl⟩ := mem_map.mp hmem
    exact Nat.le_add_right ..
  | manyOpt ids =>
    obtain ⟨x, hx, hxc⟩ := mem_filterMap.mp hmem
    obtain ⟨y, -, rfl⟩ := mem_map.mp hx
    obtain ⟨z, -, rfl⟩ := Option.map_eq_some_iff.mp hxc
    exact Nat.le_add_right ..

/-- A recording leaves the nodes that were there alone. -/
theorem Recording.node_play (r : Recording) (coords : Coordinates) (a : Arena) (i : NodeId)
    (hi : i < a.size) : (r.play coords a).1.node i = a.node i := by
  have hallocate : ∀ (nodes : List (Kind × Range)) (b : Arena), a.size ≤ b.size →
      (allocate a.size coords nodes b).node i = b.node i := by
    intro nodes
    induction nodes with
    | nil => exact fun b _ => rfl
    | cons n nodes ih =>
      intro b hb
      have hsize := Arena.size_allocAt (a := b) (n.1.mapSlots (.shift a.size)) n.2 coords
      have hout : i ∉ (n.1.mapSlots (.shift a.size)).childIds := fun hmem =>
        not_lt.mpr (Kind.childIds_shift hmem) hi
      rw [allocate, foldl_cons, ← allocate, ih _ (by omega), Arena.node_allocAt (hi.trans_le hb) hout]
  exact hallocate r.nodes a le_rfl

/-- A document with a recorded parse of its virtual script. -/
structure Sample where
  source : Text
  document : Template.Document
  recording : Recording

namespace Sample

def woven (s : Sample) : Woven := weave (.ofText s.source) s.document .empty

def parsed (s : Sample) : Arena × HostParse :=
  s.recording.play (.ofText s.woven.script.text) s.woven.arena

def restored (s : Sample) : Except Failure Restored :=
  restore (.ofText s.source) s.woven.script s.parsed.1 s.parsed.2.scopes s.parsed.2.program
    s.parsed.2.tokens s.parsed.2.comments s.woven.roots

/-- What is computed of a restored sample. -/
theorem restored_shows {s : Sample} {α : Type} {f : Restored → α} {y : α}
    (h : s.restored.toOption.map f = some y) : ∃ r, s.restored = .ok r ∧ f r = y := by
  cases hr : s.restored <;> rw [hr] at h <;> cases h
  exact ⟨_, rfl, rfl⟩

theorem restored_ok {s : Sample} (h : s.restored.toBool = true) : ∃ r, s.restored = .ok r := by
  cases hr : s.restored <;> rw [hr] at h <;> cases h
  exact ⟨_, rfl⟩

/-- A conditional with one value inside. -/
def conditional : Sample where
  source := "\x7b#if a\x7d\x7bb\x7d\x7b/if\x7d".toList
  document := ⟨[], [.ifBlock ⟨0, 15⟩ ⟨5, 6⟩ false [.mustache ⟨7, 10⟩ ⟨8, 9⟩ false] none]⟩
  recording :=
    { nodes :=
      [(.identifier "a", ⟨4, 5⟩), (.identifier "b", ⟨10, 11⟩), (.expressionStatement 1, ⟨9, 13⟩),
        (.blockStatement [2], ⟨7, 15⟩), (.ifStatement 0 3 none, ⟨0, 15⟩),
        (.emptyStatement, ⟨17, 18⟩), (.program .module [4, 5], ⟨0, 18⟩)]
      program := 6
      tokens := [(.keyword, "if", ⟨0, 2⟩), (.punctuator, "(", ⟨3, 4⟩), (.identifier, "a", ⟨4, 5⟩),
        (.punctuator, ")", ⟨5, 6⟩), (.punctuator, "\x7b", ⟨7, 8⟩), (.punctuator, "(", ⟨9, 10⟩),
        (.identifier, "b", ⟨10, 11⟩), (.punctuator, ")", ⟨11, 12⟩), (.punctuator, ";", ⟨12, 13⟩),
        (.punctuator, "\x7d", ⟨14, 15⟩), (.punctuator, ";", ⟨17, 18⟩)]
      comments := []
      scopes :=
      [.addScope .global 6 none, .addScope .module 6 (some 0), .addScope .block 3 (some 1),
        .addReference 1 0 "a" .read false, .addReference 2 1 "b" .read false, .resolve 0, .resolve 1] }

theorem conditional_hostTree :
    HostTree conditional.woven.arena conditional.parsed.1 conditional.parsed.2.program :=
  .of_nodes [2, 3, 4, 5, 6, 7, 8] (by decide +kernel) (Recording.node_play _ _ _)
    (by decide +kernel) (by decide +kernel)

theorem conditional_restored : conditional.restored.toBool = true := by cbv

end Sample

theorem restore_fills_slots_conditional : ∃ r, Sample.conditional.restored = .ok r ∧
    ∀ t ∈ Sample.conditional.woven.script.tasks, ∃ n targets, t.Filled Sample.conditional.source
      Sample.conditional.woven.script.text Sample.conditional.parsed.1 Sample.conditional.parsed.2.program
      r.arena n targets := by
  obtain ⟨r, hr⟩ := Sample.restored_ok Sample.conditional_restored
  exact ⟨r, hr, restore_fills_slots (by decide) (by decide) Sample.conditional_hostTree hr⟩

end Loom
