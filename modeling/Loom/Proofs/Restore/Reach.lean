import Loom.Proofs.Restore.Unified

/-!
What of the embedded code is in the unified tree.

A node on the text of a fragment is in the tree when it is below a target of the wrapper around it.
The shape of a wrapper fixes its targets, but not that all of the fragment is below them: only a
wrapper with nothing but its target loses nothing.
-/

open List

namespace Loom

open Arena Sample

variable {source : Text} {woven : Woven} {scripts : List Fragment} {h : Arena}
  {program x c : NodeId}
  {tokens : List Token} {comments : List Comment} {r : Restored} {w : Workbench} {done : List Match}
  {m m' : Match} {f : Fragment}

/-- A wrapper inside another one is clear of its fragments. -/
theorem Standing.wrapper_unique (s : Standing source woven scripts h program w done)
    (hdone : done.Pairwise fun m m' => m.task.SlotsApart m'.task) (hm : m ∈ done) (hm' : m' ∈ done)
    (hf : f ∈ m.task.fragments) (hinside : f.generated.contains (h.range x) = true)
    (hproper : (h.range x).start < (h.range x).stop) (hnodes : h.Below m.node m'.node)
    (hx : h.Below m'.node x) : m' = m := by
  by_contra hne
  have hnested := s.host.contains_of_below (s.node_below hm) hnodes
  have hcontains := s.host.contains_of_below (s.node_below hm') hx
  rw [s.range m hm, s.range m' hm'] at hnested
  rw [s.range m' hm'] at hcontains
  rw [Range.contains_iff] at hinside
  have htasks : m.task ≠ m'.task :=
    fun heq => hdone.forall hm hm' (Ne.symm hne) f hf f (heq ▸ hf) rfl
  rcases s.layout.order.forall (s.task m hm) (s.task m' hm') htasks with hbefore | hbefore
  · rcases hbefore with hle | ⟨hlt, -, -⟩ <;> omega
  · rcases hbefore with hle | ⟨-, -, hclear⟩
    · omega
    · rcases hclear f hf with hlt | hle <;> omega

namespace Outcome

variable {st : SourceType} {body : List NodeId}

variable (o : Outcome source woven scripts h program tokens comments r w done)

include o

/-- Everything below a target is in the tree. -/
theorem reach_target (hprog : h.kind program = .program st body) (hm : m ∈ done)
    {p : Fragment × NodeId} (hp : p ∈ m.pairs) (hx : h.Below p.2 x) : r.arena.Below program x := by
  have hs := o.standing
  have howner :=
    hs.layout.owner_lt p.1 (mem_taskFragments.mpr ⟨m.task, hs.task m hm, (Match.mem_pairs hp).1⟩)
  obtain ⟨root, hroot, hpath⟩ := o.forest.covered p.1.owner howner
  obtain ⟨-, body', hkind, hperm, -⟩ := o.program_body hprog
  have hfirst : r.arena.Lists program root :=
    (lists_program hkind).mpr (hperm.mem_iff.mpr (mem_append_right _ hroot))
  have hmarkup : r.arena.Below root p.1.owner := by
    refine o.forest.below_mono (o.forest.top_lt root hroot) hpath fun z c hz hc => ?_
    rw [Arena.Lists, mem_children] at hc ⊢
    exact (o.markup_children hz).mem_iff.mpr (mem_append_right _ hc)
  have hslot : r.arena.Lists p.1.owner p.2 := by
    rw [Arena.Lists, mem_children, (o.markup_children howner).mem_iff]
    refine mem_append_left _ (mem_map_of_mem (mem_filter.mpr ⟨?_, decide_eq_true rfl⟩))
    exact mem_flatMap.mpr ⟨m, hm, hp⟩
  have hscript : r.arena.Below p.2 x := by
    induction hx with
    | refl => exact .refl
    | tail hxy hlists ih =>
      rename_i y c
      refine ih.tail ?_
      have hself : y ≠ program := by
        rintro rfl
        obtain ⟨hbelow, -⟩ := hs.target_below hm (Match.mem_pairs hp).2
        exact hs.node_ne hm (hbelow.trans hxy)
      have hsame := (o.finished.kind y hself).trans (hs.target_child hm hp hxy).1
      rw [lists_congr hsame]
      exact hlists
  exact (Relation.ReflTransGen.head hfirst hmarkup).trans (.head hslot hscript)

/-- A node on the text of a fragment is below the wrapper. -/
theorem below_wrapper (henc : h.Enclosing program) (hm : m ∈ done) (hf : f ∈ m.task.fragments)
    (hx : h.Below program x) (hinside : f.generated.contains (h.range x) = true) :
    h.Below m.node x := by
  have hs := o.standing
  have hframed := hs.layout.framed m.task (hs.task m hm)
  have hstart := hframed.start_lt f hf
  have hstop := hframed.lt_stop f hf
  rw [Range.contains_iff] at hinside
  refine henc m.node x (hs.node_below hm) hx ?_ ?_
  · rw [hs.range m hm]
    omega
  · rw [hs.range m hm]
    omega

/-- In the tree it is below a target of that wrapper. -/
theorem below_target (hprog : h.kind program = .program st body)
    (hdrop : ∀ m ∈ done, ∀ x, h.Below program x → h.Lists x m.node →
      (h.kind x).canDrop m.node = true) (hm : m ∈ done)
    (hf : f ∈ m.task.fragments) (hinside : f.generated.contains (h.range x) = true)
    (hproper : (h.range x).start < (h.range x).stop) (hwrapper : h.Below m.node x)
    (hx : r.arena.Below program x) : ∃ y ∈ m.targets, h.Below y x := by
  have hs := o.standing
  cases o.place_of_below hprog hdrop hx with
  | markup hlt =>
    exact absurd hlt (not_lt.mpr (hs.host.fresh x ((hs.node_below hm).trans hwrapper)))
  | outside _ hout _ => exact absurd hwrapper (hout m hm)
  | target m' hm' p hp hbelow =>
    have hinside' := (hs.inside_of_below hm' hp hbelow).2
    have htouch : ¬ f.Apart p.1 := by
      rw [Range.contains_iff] at hinside hinside'
      rintro (hapart | hapart) <;> omega
    obtain ⟨htask, hfrag⟩ :=
      hs.layout.eq_of_touch (hs.task m hm) (hs.task m' hm') hf (Match.mem_pairs hp).1 htouch
    have hsame : m = m' := by
      by_contra hne
      exact o.slots_apart.forall hm hm' hne f hf p.1 (Match.mem_pairs hp).1 (congrArg Fragment.slot hfrag)
    subst hsame
    exact ⟨p.2, (Match.mem_pairs hp).2, hbelow⟩

/-- A wrapper with one child has all of its fragment below that. -/
theorem below_only_target (hm : m ∈ done)
    (haction : m.task.action = .expression ∨ m.task.action = .constTag)
    (hf : f ∈ m.task.fragments) (hinside : f.generated.contains (h.range x) = true)
    (hproper : (h.range x).start < (h.range x).stop) (hwrapper : h.Below m.node x) :
    ∃ y ∈ m.targets, h.Below y x := by
  have hs := o.standing
  have hnode := hs.node_below hm
  rcases hwrapper.cases_head with rfl | ⟨c, hc, hcx⟩
  · -- The wrapper is wider than its fragments.
    have hstart := (hs.layout.framed m.task (hs.task m hm)).start_lt f hf
    simp only [Range.contains, Bool.and_eq_true, decide_eq_true_eq, hs.range m hm] at hinside
    omega
  refine ⟨c, ?_, hcx⟩
  have hkept : c ∉ done.map Match.node := by
    intro hmem
    obtain ⟨m', hm', rfl⟩ := mem_map.mp hmem
    have hsame := hs.wrapper_unique o.slots_apart hm hm' hf hinside hproper (.single hc) hcx
    exact hs.host.not_below_parent hnode hc (hsame ▸ .refl)
  have hlists : c ∈ (w.arena.kind m.node).childIds := by
    rw [hs.kind m.node hnode, Kind.mem_childIds_dropAll hkept]
    exact mem_children.mp hc
  have hshape := hs.shape m hm
  generalize m.targets = targets at hshape ⊢
  cases hshape with
  | expression _ statement | constTag _ statement =>
    rw [statement, Kind.childIds_eq] at hlists
    simpa [Kind.slotIds, Kind.slots, Slot.nodeIds] using hlists
  | ifBlock action | eachBlock action | callback action | snippet action => simp [action] at haction

end Outcome

/-- Of the nodes on the text of a fragment, exactly those below the targets of its wrapper are in
the restored tree. -/
theorem restore_reaches_iff {source : Text} {d : Template.Document} {h : Arena}
    {scopes : ScopeGraph}
    {program : NodeId} {st : SourceType} {body : List NodeId} {tokens : List Token}
    {comments : List Comment} {r : Restored} (hd : d.rangeFault? source = none)
    (ht : HostTree (weave (.ofText source) d .empty).arena h program)
    (henc : h.Enclosing program) (hprog : h.kind program = .program st body)
    (hdrop : ∀ t ∈ (weave (.ofText source) d .empty).script.tasks, ∀ x n, h.Below program x →
      h.Lists x n →
      h.range n = t.range → h.Outermost program t.range n → (h.kind x).canDrop n = true)
    (hok : restore (.ofText source) (weave (.ofText source) d .empty).script h scopes program tokens
      comments (weave (.ofText source) d .empty).roots = .ok r) :
    ∀ t ∈ (weave (.ofText source) d .empty).script.tasks, ∃ n targets,
      h.Below program n ∧ h.range n = t.range ∧ t.targets? r.arena n = some targets ∧
      ∀ f ∈ t.fragments, ∀ x, h.Below program x → f.generated.contains (h.range x) = true →
        (h.range x).start < (h.range x).stop →
        h.Below n x ∧ (r.arena.Below program x ↔ ∃ y ∈ targets, h.Below y x) ∧
        (t.action = .expression ∨ t.action = .constTag → r.arena.Below program x) := by
  obtain ⟨scripts, w, done, o, -⟩ := restore_reconciled hd ht hok
  have hs := o.standing
  have hlists : ∀ m ∈ done, ∀ x, h.Below program x → h.Lists x m.node →
      (h.kind x).canDrop m.node = true :=
    fun m hm x hx hlists => hdrop m.task (hs.task m hm) x m.node hx hlists (hs.range m hm)
      (hs.outermost m hm)
  intro t htask
  obtain ⟨m, hm, rfl⟩ := mem_map.mp (o.tasks.mem_iff.mpr htask)
  refine ⟨m.node, m.targets, hs.node_below hm, hs.range m hm,
    Task.targets?_eq_some.mpr (o.shape hm), ?_⟩
  intro f hf x hx hinside hproper
  have hwrapper := o.below_wrapper henc hm hf hx hinside
  have hreach : (∃ y ∈ m.targets, h.Below y x) → r.arena.Below program x := by
    rintro ⟨y, hy, hyx⟩
    rw [← Match.pairs_snd (hs.shape m hm)] at hy
    obtain ⟨p, hp, rfl⟩ := mem_map.mp hy
    exact o.reach_target hprog hm hp hyx
  refine ⟨hwrapper, ⟨o.below_target hprog hlists hm hf hinside hproper hwrapper, hreach⟩, ?_⟩
  intro haction
  exact hreach (o.below_only_target hm haction hf hinside hproper hwrapper)

/-- A conditional whose test closes the parenthesis and opens a second conditional. -/
def Sample.dangling : Sample where
  source := "\x7b#if a) if (b\x7dx\x7b/if\x7d".toList
  document := ⟨[], [.ifBlock ⟨0, 20⟩ ⟨5, 13⟩ false [] none]⟩
  recording :=
    { nodes :=
      [(.identifier "a", ⟨4, 5⟩), (.identifier "b", ⟨11, 12⟩), (.blockStatement [], ⟨14, 17⟩),
        (.ifStatement 1 2 none, ⟨7, 17⟩), (.ifStatement 0 3 none, ⟨0, 17⟩),
        (.emptyStatement, ⟨19, 20⟩), (.program .module [4, 5], ⟨0, 20⟩)]
      program := 6
      tokens := []
      comments := []
      scopes :=
      [.addScope .global 6 none, .addScope .module 6 (some 0), .addScope .block 2 (some 1),
        .addReference 1 0 "a" .read false, .addReference 1 1 "b" .read false, .resolve 0, .resolve 1] }

theorem Sample.dangling_below : dangling.parsed.1.Below dangling.parsed.2.program 2 := by
  have hmem : 2 ∈ dangling.parsed.1.descendants dangling.parsed.2.program := by decide +kernel
  exact below_of_mem_within hmem

theorem restore_reaches_iff_dangling : ∃ r, dangling.restored = .ok r ∧
    ∀ t ∈ dangling.woven.script.tasks, ∃ n targets, t.targets? r.arena n = some targets ∧
      (r.arena.Below dangling.parsed.2.program 2 ↔ ∃ y ∈ targets, dangling.parsed.1.Below y 2) := by
  obtain ⟨r, hr⟩ := restored_ok (s := dangling) (by cbv)
  have hprog : dangling.parsed.1.kind dangling.parsed.2.program = .program .module [5, 6] := by cbv
  have htasks :
    (dangling.woven.script.tasks.map fun t => (t.range, t.fragments.map Fragment.generated)) =
      [(⟨0, 17⟩, [⟨4, 12⟩])] := by
    cbv
  have hlists : ∀ x ∈ [1, 2, 3, 4, 5, 6, 7], ∀ n ∈ dangling.parsed.1.children x,
      dangling.parsed.1.range n = ⟨0, 17⟩ → (dangling.parsed.1.kind x).canDrop n = true := by
    decide +kernel
  have htask : ∀ t ∈ dangling.woven.script.tasks, (t.range, t.fragments.map Fragment.generated) =
      (⟨0, 17⟩, [⟨4, 12⟩]) := fun t ht => mem_singleton.mp (htasks ▸ mem_map_of_mem ht)
  refine ⟨r, hr, fun t ht => ?_⟩
  obtain ⟨n, targets, -, -, hshape, hnodes⟩ := restore_reaches_iff (by decide)
    (.of_nodes [1, 2, 3, 4, 5, 6, 7] (by decide +kernel) (Recording.node_play _ _ _)
      (by decide +kernel) (by decide +kernel))
    (.of_nodes [1, 2, 3, 4, 5, 6, 7] (by decide +kernel) (by decide +kernel) (by decide +kernel))
      hprog
    (fun t ht x n hx hn hrange _ => hlists x
      (mem_of_below (by decide +kernel) (by decide +kernel) hx) n hn
      (hrange.trans (Prod.mk.inj (htask t ht)).1)) hr t ht
  obtain ⟨f, hf, hgen⟩ : ∃ f ∈ t.fragments, f.generated = ⟨4, 12⟩ :=
    mem_map.mp ((Prod.mk.inj (htask t ht)).2 ▸ mem_singleton_self _)
  refine ⟨n, targets, hshape, (hnodes f hf 2 dangling_below ?_ (by decide +kernel)).2.1⟩
  rw [hgen]
  decide +kernel

/-- The test of the second conditional is on the text of the fragment, but not in the tree. -/
theorem dangling_loses_test : ∃ r, dangling.restored = .ok r ∧
    ∃ t ∈ dangling.woven.script.tasks, ∃ f ∈ t.fragments, ∃ x,
      dangling.parsed.1.Below dangling.parsed.2.program x ∧
      f.generated.contains (dangling.parsed.1.range x) = true ∧
      (dangling.parsed.1.range x).start < (dangling.parsed.1.range x).stop ∧
      ¬ r.arena.Below dangling.parsed.2.program x := by
  have hkids : (dangling.restored.toOption.map fun r => [7, 0, 1].map r.arena.children) =
      some [[0], [1], []] := by
    cbv
  obtain ⟨r, hr, hclosed⟩ := restored_shows hkids
  have htasks : (dangling.woven.script.tasks.map fun t => t.fragments.map Fragment.generated) =
      [[⟨4, 12⟩]] := by
    cbv
  obtain ⟨t, ht, hfrags⟩ := mem_map.mp (htasks ▸ mem_singleton_self _)
  obtain ⟨f, hf, hgen⟩ := mem_map.mp (hfrags ▸ mem_singleton_self _)
  refine ⟨r, hr, t, ht, f, hf, 2, dangling_below, ?_, by decide +kernel, fun hbelow => ?_⟩
  · rw [hgen]
    decide +kernel
  · -- The nodes 7, 0 and 1 hold all their children.
    simp only [map_cons, map_nil, List.cons.injEq, and_true] at hclosed
    obtain ⟨hprog, hmarkup, htest⟩ := hclosed
    have hmem : 2 ∈ [7, 0, 1] := by
      refine mem_of_below (by decide +kernel) ?_ hbelow
      simp [hprog, hmarkup, htest]
    simp at hmem

end Loom
