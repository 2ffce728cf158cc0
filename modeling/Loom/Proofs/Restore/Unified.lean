import Loom.Proofs.Restore.Items

/-!
The unified tree.

A node of it is a markup node, a script node outside of all wrappers, or a script node below a
target of a wrapper. Each of them is listed by one node, which is its parent. What no slot took of a
wrapper is not in the tree.
-/

open List

namespace Loom

open Match Sample

variable {source : Text} {woven : Woven} {scripts : List Fragment} {h : Arena}
  {program x c : NodeId} {w : Workbench} {done : List Match}

theorem zip_fst_inj {α β : Type} {l : List α} {l' : List β} {p q : α × β} (hnodup : l.Nodup)
    (hp : p ∈ l.zip l') (hq : q ∈ l.zip l') (heq : p.1 = q.1) : p = q := by
  obtain ⟨i, hi, rfl⟩ := mem_iff_getElem.mp hp
  obtain ⟨j, hj, rfl⟩ := mem_iff_getElem.mp hq
  simp only [getElem_zip] at heq ⊢
  obtain rfl := (hnodup.getElem_inj_iff).mp heq
  rfl

theorem Task.Framed.fragments_nodup {t : Task} (h : t.Framed) : t.fragments.Nodup := by
  refine h.apart.imp_of_mem fun {f f'} hf _ happart heq => ?_
  have hord := h.ordered f hf
  subst heq
  rcases happart with hlt | hlt <;> omega

theorem Kind.childIds_program {st : SourceType} {body : List NodeId} :
    (Kind.program st body).childIds = body := by
  rw [Kind.childIds_eq]
  simp [Kind.slotIds, Kind.slots, Slot.nodeIds]

theorem Arena.lists_program {a : Arena} {program c : NodeId} {st : SourceType} {body : List NodeId}
    (h : a.kind program = .program st body) : a.Lists program c ↔ c ∈ body := by
  rw [Arena.Lists, Arena.mem_children, h, Kind.childIds_program]

theorem HostTree.not_root {base h : Arena} {program x : NodeId} {roots : List NodeId}
    (ht : HostTree base h program)
    (hforest : Forest base roots) (hx : h.Below program x) : x ∉ roots := fun hmem =>
  absurd (hforest.top_lt x hmem) (not_lt.mpr (ht.fresh x hx))

instance : Std.Symm fun m m' : Match => m.task.SlotsApart m'.task :=
  ⟨fun _ _ => Task.SlotsApart.symm⟩

namespace Standing

variable {m m' : Match} {p p' : Fragment × NodeId}

variable (s : Standing source woven scripts h program w done)

include s

theorem inside_of_below (hm : m ∈ done) (hp : p ∈ m.pairs) (hx : h.Below p.2 x) :
    h.Below program x ∧ p.1.generated.contains (h.range x) = true := by
  have htarget := (s.node_below hm).trans (s.target_below hm (mem_pairs hp).2).1
  refine ⟨htarget.trans hx, ?_⟩
  have hinside := s.inside m hm p hp
  have hnested := s.host.contains_of_below htarget hx
  rw [Range.contains_iff] at hinside ⊢
  omega

/-- A node is below one target only. -/
theorem pair_unique (hdone : done.Pairwise fun m m' => m.task.SlotsApart m'.task) (hm : m ∈ done)
    (hm' : m' ∈ done)
    (hp : p ∈ m.pairs) (hp' : p' ∈ m'.pairs) (hx : h.Below p.2 x) (hx' : h.Below p'.2 x) :
    m = m' ∧ p = p' := by
  obtain ⟨hbelow, hinside⟩ := s.inside_of_below hm hp hx
  obtain ⟨-, hinside'⟩ := s.inside_of_below hm' hp' hx'
  have hord := s.host.ordered x hbelow
  have htouch : ¬ p.1.Apart p'.1 := by
    rw [Range.contains_iff] at hinside hinside'
    rintro (hapart | hapart) <;> omega
  obtain ⟨htask, hfrag⟩ := s.layout.eq_of_touch (s.task m hm) (s.task m' hm') (mem_pairs hp).1
    (mem_pairs hp').1 htouch
  have hsame : m = m' := by
    by_contra hne
    exact hdone.forall hm hm' hne p.1 (mem_pairs hp).1 p'.1 (mem_pairs hp').1
      (congrArg Fragment.slot hfrag)
  subst hsame
  exact ⟨rfl, zip_fst_inj (s.layout.framed _ (s.task m hm)).fragments_nodup hp hp' hfrag⟩

/-- The children of a script node outside of the wrappers that are still there. -/
theorem outside_child
    (hdrop : ∀ m ∈ done, ∀ x, h.Below program x → h.Lists x m.node →
      (h.kind x).canDrop m.node = true)
    (hx : h.Below program x) (hout : ∀ m ∈ done, ¬ h.Below m.node x) (hc : w.arena.Lists x c) :
    h.Lists x c ∧ ∀ m ∈ done, ¬ h.Below m.node c := by
  have hlists := s.lists_host hx hc
  refine ⟨hlists, fun m hm hbelow => ?_⟩
  by_cases hsame : m.node = c
  · -- The statement was taken out.
    subst hsame
    have hnodup := (h.children_perm x).nodup_iff.mp (s.host.nodup x hx)
    rw [Arena.Lists, Arena.mem_children, s.kind x hx] at hc
    exact Kind.notMem_childIds_dropAll hnodup (mem_map_of_mem hm) (hdrop m hm x hx hlists) hc
  · exact hout m hm (s.host.below_parent (s.node_below hm) hx hlists hbelow hsame)

/-- Below a target nothing was taken out. -/
theorem target_child (hm : m ∈ done) (hp : p ∈ m.pairs) (hx : h.Below p.2 x) :
    w.arena.kind x = h.kind x ∧ ∀ m' ∈ done, ¬ h.Below x m'.node := by
  obtain ⟨hbelow, hinside⟩ := s.inside_of_below hm hp hx
  have hnone : ∀ m' ∈ done, ¬ h.Below x m'.node := fun m' hm' =>
    s.not_below_inside (s.task m hm) (mem_pairs hp).1 hbelow hinside hm'
  exact ⟨s.kind_eq hbelow fun m' hm' hlists => hnone m' hm' (.single hlists), hnone⟩

/-- A node strictly below a target has the parent that the parser gave it. -/
theorem target_parent (hdone : done.Pairwise fun m m' => m.task.SlotsApart m'.task) (hm : m ∈ done)
    (hp : p ∈ m.pairs) (hx : h.Below p.2 x) (hc : h.Lists x c) : w.arena.parent c = some x := by
  have hbelow := (s.inside_of_below hm hp hx).1
  rw [s.parent c (hbelow.tail hc), s.host.parent x c hbelow hc]
  intro m' hm'
  have hnone := (s.target_child hm hp hx).2 m' hm'
  refine ⟨fun heq => hnone (heq ▸ .single hc), fun hmem => ?_⟩
  rw [← pairs_snd (s.shape m' hm')] at hmem
  obtain ⟨p', hp', heq⟩ := mem_map.mp hmem
  have hpair := (s.pair_unique hdone hm hm' hp hp' (hx.tail hc) (heq ▸ .refl)).2
  -- The node would be the target, which is above it.
  rw [← hpair] at heq
  exact s.host.not_below_parent hbelow hc (heq ▸ hx)

end Standing

/-- The nodes of a unified tree. A script node outside of the wrappers is the program or is left of
a statement that starts on copied text. -/
inductive Place (woven : Woven) (h : Arena) (program : NodeId) (w : Workbench) (done : List Match)
    (x : NodeId) : Prop
  | markup (lt : x < woven.arena.size)
  | outside (below : h.Below program x) (out : ∀ m ∈ done, ¬ h.Below m.node x)
      (kept : x = program ∨ ∃ s, w.arena.Lists program s ∧
        (woven.script.mapStart (w.arena.range s).start).isSome = true ∧ w.arena.Below s x)
  | target (m : Match) (done : m ∈ done) (p : Fragment × NodeId) (pair : p ∈ m.pairs)
    (below : h.Below p.2 x)

namespace Outcome

variable {tokens : List Token} {comments : List Comment} {r : Restored} {st : SourceType}
  {body : List NodeId}

variable (o : Outcome source woven scripts h program tokens comments r w done)

include o

theorem slots_apart : done.Pairwise fun m m' => m.task.SlotsApart m'.task :=
  pairwise_map.mp (o.standing.layout.slots.perm o.tasks.symm Task.SlotsApart.symm)

theorem markup_ne (hx : x < woven.arena.size) : x ≠ program := by
  rintro rfl
  exact absurd hx (not_lt.mpr (o.standing.host.fresh x .refl))

/-- The children of a markup node are those that it was woven with and the targets for its slots. -/
theorem markup_children (hx : x < woven.arena.size) :
    (r.arena.kind x).childIds.Perm
      (((done.flatMap pairs).filter (·.1.owner = x)).map Prod.snd ++ (woven.arena.kind x).childIds) := by
  have hs := o.standing
  have hkind : h.kind x = woven.arena.kind x := congrArg Node.kind (hs.host.kept x hx)
  have hpairs : (done.flatMap pairs).Pairwise fun p q => p.1.slot = q.1.slot →
      p.1.field = .param := by
    rw [pairwise_flatMap]
    refine ⟨fun m hm => ?_, o.slots_apart.imp fun hapart p hp q hq hslot => ?_⟩
    · have hown := (hs.layout.ownSlots m.task (hs.task m hm)).apart
      rw [← map_fst_zip (hs.shape m hm).length.symm.le, pairwise_map] at hown
      exact hown
    · exact absurd hslot (hapart p.1 (mem_pairs hp).1 q.1 (mem_pairs hq).1)
  have hfill := hs.markup x hx
  have hperm :=
    Kind.childIds_fill hfill (fun s _ => .inr (by rw [hkind]; exact o.forest.blank x hx _)) ?_
  · rw [o.finished.kind x (o.markup_ne hx), ← hkind]
    rw [slotsOf, map_map] at hperm
    exact hperm
  · rw [slotsOf, pairwise_map]
    refine (hpairs.filter _).imp_of_mem fun {p q} hp hq himp hfield => himp ?_
    have hp := of_decide_eq_true (mem_filter.mp hp).2
    have hq := of_decide_eq_true (mem_filter.mp hq).2
    exact Prod.ext (hp.trans hq.symm) hfield

/-- A top-level statement has the range that the parser gave it. -/
theorem statement_still (hx : h.Lists program x) : w.arena.range x = h.range x := by
  have hs := o.standing
  refine hs.still x (.single hx) fun hvis => ?_
  obtain ⟨m, hm, y, hy, hbelow⟩ := (hs.visited x).mp hvis
  obtain ⟨hmy, hne⟩ := hs.target_below hm hy
  refine hs.node_ne hm (hs.host.below_parent (hs.node_below hm) .refl hx (hmy.trans hbelow) ?_)
  rintro rfl
  exact hne (hs.host.antisymm (hs.node_below hm) hmy hbelow).symm

/-- No wrapper starts on copied text. -/
theorem wrapper_start {m : Match} (hm : m ∈ done) :
    woven.script.mapStart (h.range m.node).start = none := by
  have hlayout := o.standing.layout
  have htask := o.standing.task m hm
  rw [o.standing.range m hm]
  cases hmap : woven.script.mapStart m.task.range.start with
  | none => rfl
  | some k =>
    obtain ⟨b, hb, hle, hlt, -⟩ := VirtualScript.mapStart_eq_some hmap
    obtain ⟨f, hf, hproper, rfl⟩ := (hlayout.breakpoints b).mp hb
    rw [Fragment.breakpoint_stop hproper.le] at hlt
    have hgen : f.breakpoint.generated = f.generated.start := rfl
    rcases mem_append.mp hf with hf | hf
    · have hframed := (hlayout.framed m.task htask).proper
      rcases hlayout.scripts_clear f hf m.task htask with hclear | hclear <;> omega
    · obtain ⟨t, ht, hf⟩ := mem_taskFragments.mp hf
      rcases hlayout.start_outside ht htask hf with hout | hout <;> omega

theorem kind_program (hprog : h.kind program = .program st body) :
    w.arena.kind program = .program st (body.filter (· ∉ done.map node)) := by
  rw [o.standing.kind program .refl, hprog, Kind.dropAll_program]

/-- The program has the statements that start on copied text, and the markup nodes. -/
theorem program_body (hprog : h.kind program = .program st body) :
    (∀ x ∈ woven.roots, r.arena.parent x = some program) ∧
    ∃ body', r.arena.kind program = .program st body' ∧
      body'.Perm ((body.filter fun s => (woven.script.mapStart (h.range s).start).isSome) ++ woven.roots) ∧
      (program ∉ body' → body'.Pairwise fun x y => (r.arena.range x).start ≤ (r.arena.range y).start) := by
  have hroots : ∀ x ∈ woven.roots, x < w.arena.size := by
    intro x hx
    rw [o.standing.size]
    have ht := o.standing.host
    exact (o.forest.top_lt x hx).trans_le
      (le_of_lt ((ht.fresh program .refl).trans_lt (ht.bounded program .refl)))
  obtain ⟨hparents, body', hkind, hperm, hsorted⟩ :=
    o.finished.body st _ (o.kind_program hprog) hroots
  refine ⟨hparents, body', hkind, ?_, hsorted⟩
  rw [filter_filter] at hperm
  rw [filter_congr fun s hs => ?_] at hperm
  · exact hperm
  rw [o.statement_still ((Arena.lists_program hprog).mpr hs)]
  cases hmap : woven.script.mapStart (h.range s).start with
  | none => rfl
  | some k =>
    have hkept : s ∉ done.map node := by
      intro hmem
      obtain ⟨m, hm, rfl⟩ := mem_map.mp hmem
      rw [o.wrapper_start hm] at hmap
      cases hmap
    simp [hkept]

variable (hprog : h.kind program = .program st body)
  (hdrop : ∀ m ∈ done, ∀ x, h.Below program x → h.Lists x m.node → (h.kind x).canDrop m.node = true)

/-- A node of the script that the program does not list keeps its parent at the end. -/
theorem parent_inner (hc : h.Below program c) (hout : ¬ h.Lists program c) :
    r.arena.parent c = w.arena.parent c :=
  o.finished.parent c (o.standing.host.not_root o.forest hc) (.inr hout)

theorem markup_link (hx : x < woven.arena.size) (hc : r.arena.Lists x c) :
    Place woven h program w done c ∧ r.arena.parent c = some x := by
  have hs := o.standing
  rw [Arena.Lists, Arena.mem_children, (o.markup_children hx).mem_iff, mem_append] at hc
  rcases hc with hc | hc
  · obtain ⟨p, hp, rfl⟩ := mem_map.mp hc
    obtain ⟨hp, howner⟩ := mem_filter.mp hp
    obtain ⟨m, hm, hp⟩ := mem_flatMap.mp hp
    have howner := of_decide_eq_true howner
    obtain ⟨hbelow, hne⟩ := hs.target_below hm (mem_pairs hp).2
    refine ⟨.target m hm p hp .refl, ?_⟩
    rw [o.parent_inner ((hs.node_below hm).trans hbelow), hs.owner m hm p hp, howner]
    intro hlists
    exact hs.node_ne hm (hs.host.below_parent (hs.node_below hm) .refl hlists hbelow (Ne.symm hne))
  · have hlists := Arena.mem_children.mpr hc
    have hlt := o.forest.child_lt x c hx hlists
    have hparent := o.forest.parent x c hx hlists
    refine ⟨.markup hlt, ?_⟩
    have hroot : c ∉ woven.roots := by
      intro hmem
      rw [o.forest.top c hmem] at hparent
      cases hparent
    have hout : ¬ h.Lists program c := fun hc =>
      absurd hlt (not_lt.mpr (hs.host.fresh c (.single hc)))
    rw [o.finished.parent c hroot (.inr hout), hs.markupParent c hlt, ← hparent]
    exact congrArg Node.parent (hs.host.kept c hlt)

include hprog hdrop in
theorem program_link (hc : r.arena.Lists program c) :
    Place woven h program w done c ∧ r.arena.parent c = some program := by
  have hs := o.standing
  obtain ⟨hparents, body', hkind, hperm, -⟩ := o.program_body hprog
  rcases mem_append.mp (hperm.mem_iff.mp ((Arena.lists_program hkind).mp hc)) with hmem | hmem
  · obtain ⟨hmem, hsome⟩ := mem_filter.mp hmem
    have hlists : h.Lists program c := (Arena.lists_program hprog).mpr hmem
    have hkept : w.arena.Lists program c := by
      have hout : c ∉ done.map node := by
        intro hmem
        obtain ⟨m, hm, rfl⟩ := mem_map.mp hmem
        rw [o.wrapper_start hm] at hsome
        cases hsome
      exact (Arena.lists_program (o.kind_program hprog)).mpr (mem_filter.mpr ⟨hmem, decide_eq_true hout⟩)
    have hout : ∀ m ∈ done, ¬ h.Below m.node program := fun m hm => hs.node_ne hm
    rw [← o.statement_still hlists] at hsome
    refine ⟨.outside (.single hlists) (hs.outside_child hdrop .refl hout hkept).2
      (.inr ⟨c, hkept, hsome, .refl⟩), ?_⟩
    rw [o.finished.parent c (hs.host.not_root o.forest (.single hlists)) (.inl hsome)]
    exact hs.parent_of_lists .refl hout hkept
  · exact ⟨.markup (o.forest.top_lt c hmem), hparents c hmem⟩

include hprog hdrop in
/-- What a node of the tree lists is in the tree, and has it for its parent. -/
theorem link (hx : Place woven h program w done x) (hc : r.arena.Lists x c) :
    Place woven h program w done c ∧ r.arena.parent c = some x := by
  have hs := o.standing
  by_cases hself : x = program
  · subst hself
    exact o.program_link hprog hdrop hc
  have hkind := o.finished.kind x hself
  have hinner : h.Below program x → h.Lists x c → ¬ h.Lists program c := fun hbelow hlists hc =>
    hself
      (Option.some.inj ((hs.host.parent x c hbelow hlists).symm.trans (hs.host.parent program c .refl hc)))
  cases hx with
  | markup hlt => exact o.markup_link hlt hc
  | outside hbelow hout hkept =>
    rw [Arena.lists_congr hkind] at hc
    obtain ⟨hlists, hout'⟩ := hs.outside_child hdrop hbelow hout hc
    obtain ⟨s, hstmt, hsome, hsx⟩ := hkept.resolve_left hself
    refine ⟨.outside (hbelow.tail hlists) hout' (.inr ⟨s, hstmt, hsome, hsx.tail hc⟩), ?_⟩
    rw [o.parent_inner (hbelow.tail hlists) (hinner hbelow hlists)]
    exact hs.parent_of_lists hbelow hout hc
  | target m hm p hp hbelow =>
    rw [Arena.lists_congr (hkind.trans (hs.target_child hm hp hbelow).1)] at hc
    have hx := (hs.inside_of_below hm hp hbelow).1
    refine ⟨.target m hm p hp (hbelow.tail hc), ?_⟩
    rw [o.parent_inner (hx.tail hc) (hinner hx hc)]
    exact hs.target_parent o.slots_apart hm hp hbelow hc

include hprog hdrop in
theorem place_of_below (hx : r.arena.Below program x) : Place woven h program w done x := by
  induction hx with
  | refl => exact .outside .refl (fun m hm => o.standing.node_ne hm) (.inl rfl)
  | tail _ hlists ih => exact (o.link hprog hdrop ih hlists).1

theorem targets_nodup : ((done.flatMap pairs).map Prod.snd).Nodup := by
  have hs := o.standing
  refine pairwise_map.mpr (pairwise_flatMap.mpr ⟨fun m hm => ?_, ?_⟩)
  · have hnodup := hs.targets_nodup (hs.node_below hm) (hs.shape m hm)
      (hs.layout.ownSlots m.task (hs.task m hm))
    rw [← pairs_snd (hs.shape m hm)] at hnodup
    exact pairwise_map.mp hnodup
  · refine o.slots_apart.imp_of_mem fun {m m'} hm hm' hapart p hp q hq heq => ?_
    obtain ⟨-, hpair⟩ := hs.pair_unique o.slots_apart hm hm' hp hq .refl (heq ▸ .refl)
    exact hapart p.1 (mem_pairs hp).1 q.1 (mem_pairs hq).1 (congrArg (·.1.slot) hpair)

include hprog in
/-- A node of the tree lists no node twice. -/
theorem children_nodup (hx : Place woven h program w done x) : (r.arena.children x).Nodup := by
  have hs := o.standing
  rw [(r.arena.children_perm x).nodup_iff]
  by_cases hself : x = program
  · subst hself
    obtain ⟨-, body', hkind, hperm, -⟩ := o.program_body hprog
    have hbody : body.Nodup := by
      have hnodup := (h.children_perm x).nodup_iff.mp (hs.host.nodup x .refl)
      rwa [hprog, Kind.childIds_program] at hnodup
    have hbody' : body'.Nodup := by
      refine hperm.nodup_iff.mpr (nodup_append.mpr ⟨hbody.filter _, o.forest.tops_nodup, ?_⟩)
      rintro y hy z hz rfl
      have hlists : h.Lists x y := (Arena.lists_program hprog).mpr (mem_of_mem_filter hy)
      exact hs.host.not_root o.forest (.single hlists) hz
    rwa [hkind, Kind.childIds_program]
  cases hx with
  | markup hlt =>
    rw [(o.markup_children hlt).nodup_iff, nodup_append]
    refine ⟨?_, o.forest.nodup x hlt, ?_⟩
    · exact List.Nodup.sublist (filter_sublist.map _) (o.targets_nodup)
    · rintro y hy z hz rfl
      obtain ⟨p, hp, rfl⟩ := mem_map.mp hy
      obtain ⟨m, hm, hp⟩ := mem_flatMap.mp (mem_of_mem_filter hp)
      have hbelow := (hs.inside_of_below hm hp .refl).1
      have hlt' := o.forest.child_lt x p.2 hlt (Arena.mem_children.mpr hz)
      exact absurd hlt' (not_lt.mpr (hs.host.fresh p.2 hbelow))
  | outside hbelow _ _ =>
    rw [o.finished.kind x hself]
    exact hs.nodup_host hbelow
  | target m hm p hp hbelow =>
    rw [o.finished.kind x hself]
    exact hs.nodup_host (hs.inside_of_below hm hp hbelow).1

theorem parent_program : r.arena.parent program = none := by
  have hs := o.standing
  have hself : ¬ h.Lists program program :=
    fun hlists => hs.host.not_below_parent .refl hlists .refl
  rw [o.finished.parent program (hs.host.not_root o.forest .refl) (.inr hself),
    hs.parent program .refl, hs.host.top]
  intro m hm
  refine ⟨fun heq => hs.node_ne hm (heq ▸ .refl), fun hmem => ?_⟩
  exact hs.node_ne hm (hs.target_below hm hmem).1

include hprog hdrop in
/-- No script node of the tree has the range of a wrapper, save perhaps the program. -/
theorem range_ne (hx : r.arena.Below program x) (hscript : woven.arena.size ≤ x)
    (hself : x ≠ program) {t : Task} (htask : t ∈ woven.script.tasks) : h.range x ≠ t.range := by
  have hs := o.standing
  intro hrange
  cases o.place_of_below hprog hdrop hx with
  | markup hlt => exact absurd hlt (not_lt.mpr hscript)
  | outside hbelow hout hkept =>
    have hfresh : x ∉ w.visited := by
      intro hvis
      obtain ⟨m, hm, y, hy, hbelow⟩ := (hs.visited x).mp hvis
      exact hout m hm ((hs.target_below hm hy).1.trans hbelow)
    obtain ⟨s, hstmt, hsome, hsx⟩ := hkept.resolve_left hself
    have hmapped := (o.finished.mapped s hstmt hsome x hsx).resolve_left hfresh
    obtain ⟨m, hm, rfl⟩ := mem_map.mp (o.tasks.mem_iff.mpr htask)
    rw [hs.still x hbelow hfresh, hrange, ← hs.range m hm, o.wrapper_start hm] at hmapped
    cases hmapped
  | target m hm p hp hbelow =>
    have hinside := (hs.inside_of_below hm hp hbelow).2
    have hproper := (hs.layout.framed t htask).proper
    rw [hrange] at hinside
    rw [Range.contains_iff] at hinside
    rcases hs.layout.start_outside (hs.task m hm) htask (mem_pairs hp).1 with hlt | hle <;> omega

end Outcome

/-- The nodes below `root` are a tree: each but the root is listed once, by its parent, and the root
by none. -/
structure Arena.Tree (a : Arena) (root : NodeId) : Prop where
  top : ∀ x, a.Below root x → ¬ a.Lists x root
  owner : ∀ c, a.Below root c → c ≠ root → ∃! x, a.Below root x ∧ a.Lists x c
  parent : ∀ x c, a.Below root x → a.Lists x c → a.parent c = some x
  nodup : ∀ x, a.Below root x → (a.children x).Nodup

theorem Arena.Tree.of_parent {a : Arena} {root : NodeId} (htop : a.parent root = none)
    (hparent : ∀ x c, a.Below root x → a.Lists x c → a.parent c = some x)
    (hnodup : ∀ x, a.Below root x → (a.children x).Nodup) : a.Tree root := by
  refine ⟨fun x hx hlists => ?_, fun c hc hne => ?_, hparent, hnodup⟩
  · have hsome := hparent x root hx hlists
    rw [htop] at hsome
    cases hsome
  · rcases hc.cases_tail with rfl | ⟨x, hx, hlists⟩
    · exact absurd rfl hne
    · refine ⟨x, ⟨hx, hlists⟩, fun y ⟨hy, hylists⟩ => ?_⟩
      exact Option.some.inj ((hparent y c hy hylists).symm.trans (hparent x c hx hlists))

/-- The restored tree is a tree without the wrappers: the program has the markup and its own
statements, in order. -/
theorem restore_unified {source : Text} {d : Template.Document} {h : Arena} {scopes : ScopeGraph}
    {program : NodeId} {st : SourceType} {body : List NodeId} {tokens : List Token}
    {comments : List Comment} {r : Restored} (hd : d.rangeFault? source = none)
    (ht : HostTree (weave (.ofText source) d .empty).arena h program)
    (hprog : h.kind program = .program st body)
    (hdrop : ∀ t ∈ (weave (.ofText source) d .empty).script.tasks, ∀ x n, h.Below program x →
      h.Lists x n →
      h.range n = t.range → h.Outermost program t.range n → (h.kind x).canDrop n = true)
    (hok : restore (.ofText source) (weave (.ofText source) d .empty).script h scopes program tokens
      comments (weave (.ofText source) d .empty).roots = .ok r) :
    r.arena.Tree program ∧
    (∀ t ∈ (weave (.ofText source) d .empty).script.tasks,
      (∃ n, h.Below program n ∧ n ≠ program ∧ h.range n = t.range) ∧
      ∀ x, r.arena.Below program x → (weave (.ofText source) d .empty).arena.size ≤ x →
        x ≠ program → h.range x ≠ t.range) ∧
    ∃ body', r.arena.kind program = .program st body' ∧
      body'.Perm ((body.filter fun s =>
        ((weave (.ofText source) d .empty).script.mapStart (h.range s).start).isSome) ++
        (weave (.ofText source) d .empty).roots) ∧
      body'.Pairwise fun x y => (r.arena.range x).start ≤ (r.arena.range y).start := by
  obtain ⟨scripts, w, done, o, -⟩ := restore_reconciled hd ht hok
  have hs := o.standing
  have hlists : ∀ m ∈ done, ∀ x, h.Below program x → h.Lists x m.node →
      (h.kind x).canDrop m.node = true :=
    fun m hm x hx hlists => hdrop m.task (hs.task m hm) x m.node hx hlists (hs.range m hm)
      (hs.outermost m hm)
  have htree : r.arena.Tree program := by
    refine .of_parent o.parent_program (fun x c hx hc => ?_) fun x hx => ?_
    · exact (o.link hprog hlists (o.place_of_below hprog hlists hx) hc).2
    · exact o.children_nodup hprog (o.place_of_below hprog hlists hx)
  refine ⟨htree, fun t htask => ⟨?_, fun x hx hscript hself => ?_⟩, ?_⟩
  · obtain ⟨m, hm, rfl⟩ := mem_map.mp (o.tasks.mem_iff.mpr htask)
    exact ⟨m.node, hs.node_below hm, fun heq => hs.node_ne hm (heq ▸ .refl), hs.range m hm⟩
  · exact o.range_ne hprog hlists hx hscript hself htask
  · obtain ⟨-, body', hkind, hperm, hsorted⟩ := o.program_body hprog
    refine ⟨body', hkind, hperm, hsorted fun hmem => ?_⟩
    exact htree.top program .refl ((Arena.lists_program hkind).mpr hmem)

theorem restore_unified_conditional : ∃ r, conditional.restored = .ok r ∧
    r.arena.Tree conditional.parsed.2.program ∧
    ∃ body, r.arena.kind conditional.parsed.2.program = .program .module body ∧
      body.Perm conditional.woven.roots := by
  obtain ⟨r, hr⟩ := restored_ok conditional_restored
  have hprog : conditional.parsed.1.kind conditional.parsed.2.program =
      .program .module [6, 7] := by
    cbv
  have htasks : conditional.woven.script.tasks.map Task.range = [⟨0, 15⟩, ⟨9, 13⟩] := by cbv
  have hlists : ∀ range ∈ [(⟨0, 15⟩ : Range), ⟨9, 13⟩], ∀ x ∈ [2, 3, 4, 5, 6, 7, 8],
      ∀ n ∈ conditional.parsed.1.children x, conditional.parsed.1.range n = range →
      (conditional.parsed.1.kind x).canDrop n = true := by decide +kernel
  obtain ⟨htree, -, body, hkind, hperm, -⟩ := restore_unified (by decide) conditional_hostTree hprog
    (fun t htask x n hx hn hrange _ => hlists t.range (htasks ▸ mem_map_of_mem htask) x
      (Arena.mem_of_below (by decide +kernel) (by decide +kernel) hx) n hn hrange) hr
  have hbody : ([6, 7].filter fun s => (conditional.woven.script.mapStart
      (conditional.parsed.1.range s).start).isSome) = [] := by decide +kernel
  refine ⟨r, hr, htree, body, hkind, hperm.trans (.of_eq ?_)⟩
  exact congrArg (· ++ conditional.woven.roots) hbody

end Loom
