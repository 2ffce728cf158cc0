import Loom.Proofs.Restore.Moves
import Loom.Proofs.Restore.Reach

/-!
No scaffolding in the scopes of the unified tree.

When the only scopes, references and definitions on scaffolding are those of the wrappers
themselves, undoing the wrappers takes all of them away: each scope of a wrapper goes to its own
markup node or dissolves. The proof goes along the walk, with the wrappers that are still to be
undone.
-/

open List

namespace Loom

open ScopeGraph Arena Kind Sample

variable {t : Task} {m' m : Match} {source : Text} {woven : Woven} {h a : Arena}
  {program n n' x y : NodeId}
  {gone : List NodeId} {tokens : List Token} {comments : List Comment} {r : Restored}
    {w : Workbench}
  {done before after : List Match} {g0 g g' : ScopeGraph}

/-- A node starts on copied text. -/
def Woven.Copied (woven : Woven) (h : Arena) (x : NodeId) : Prop :=
  (woven.script.mapStart (h.range x).start).isSome = true

/-- The nodes of a wrapper that have scopes, with their fates. -/
def Match.moves (h : Arena) (m : Match) : List (NodeId × Option NodeId) := m.task.moves h m.node

/-- The scopes of a parsed script in which scaffolding has nothing but what belongs to the wrappers:
a scope for each branch and each function of a wrapper, a reference to the array and a definition of
the placeholder for each loop. -/
structure Scaffolding (woven : Woven) (h : Arena) (program : NodeId) (g : ScopeGraph) : Prop where
  /-- A wrapper is one statement, among the statements of the program or of a block. -/
  statement : ∀ t ∈ woven.script.tasks, ∀ n n', h.StandsFor program t n → h.StandsFor program t n' →
    n = n'
  body : ∀ t ∈ woven.script.tasks, ∀ n, h.StandsFor program t n → ∀ x,
    h.Below program x → h.Lists x n → (h.kind x).isBody = true
  indexed : g.Indexed
  top : ∀ s, g.LiveScope s → (g.scopeAt s).upper = none → (g.scopeAt s).block = program
  scopes : ∀ s x, g.Belongs s x → h.Below program x ∧ (x = program ∨ woven.Copied h x ∨
    ∃ t ∈ woven.script.tasks, ∃ n, h.StandsFor program t n ∧ x ∈ (t.moves h n).map Prod.fst)
  /-- Every branch and every function of a wrapper is there, with one scope. -/
  heirs : ∀ t ∈ woven.script.tasks, ∀ n, h.StandsFor program t n →
    (t.moves h n).map Prod.snd = t.heirs
  scope : ∀ t ∈ woven.script.tasks, ∀ n, h.StandsFor program t n → ∀ x ∈ (t.moves h n).map Prod.fst,
    ∃ s, g.nodeScopes.get x = [s]
  filed : g.MentionsFiled
  references : ∀ i, g.Mentioned i → woven.Copied h i ∨
    ∃ t ∈ woven.script.tasks, ∃ n, h.StandsFor program t n ∧ t.array? h n = some i
  reference : ∀ t ∈ woven.script.tasks, ∀ n, h.StandsFor program t n → ∀ i, t.array? h n = some i →
    ∃ q, g.identifierReferences.get i = [q]
  definitions : ∀ s name i, g.DefinedAt s name i → woven.Copied h i ∨
    ∃ t ∈ woven.script.tasks, ∃ n callback, h.StandsFor program t n ∧
      t.placeholder? h n = some (callback, i) ∧ h.kind i = .identifier name ∧ g.Belongs s callback

/-! Wrappers in the parsed tree. -/

/-- `c` is a child of `x`, which does not hold statements. -/
def Arena.ListsPart (a : Arena) (x c : NodeId) : Prop := a.Lists x c ∧ (a.kind x).isBody = false

theorem Arena.below_of_parts (hx : Relation.ReflTransGen h.ListsPart n x) : h.Below n x :=
  hx.lift id fun _ _ hlink => hlink.1

/-- The statement that a node is a part of. -/
theorem HostTree.statement_unique (ht : HostTree woven.arena h program) (hn : h.Below program n)
    (hn' : h.Below program n')
    (hbody : ∃ b, h.Below program b ∧ h.Lists b n ∧ (h.kind b).isBody = true)
    (hbody' : ∃ b, h.Below program b ∧ h.Lists b n' ∧ (h.kind b).isBody = true)
    (hx : Relation.ReflTransGen h.ListsPart n x) (hx' : Relation.ReflTransGen h.ListsPart n' x) :
    n = n' := by
  -- A statement is no part of another one, since it has one parent.
  have hpart : ∀ {n y}, h.Below program y →
      (∃ b, h.Below program b ∧ h.Lists b n ∧ (h.kind b).isBody = true) → ¬ h.ListsPart y n := by
    rintro n y hy ⟨b, hb, hlists, hkind⟩ ⟨hlists', hkind'⟩
    have hsame : y = b :=
      Option.some.inj ((ht.parent y n hy hlists').symm.trans (ht.parent b n hb hlists))
    rw [hsame, hkind] at hkind'
    cases hkind'
  induction hx with
  | refl =>
    rcases hx'.cases_tail with heq | ⟨y, hy, hlink⟩
    · exact heq
    · exact absurd hlink (hpart (hn'.trans (below_of_parts hy)) hbody)
  | tail hy hlink ih =>
    rename_i y c
    have hbelow := hn.trans (below_of_parts hy)
    rcases hx'.cases_tail with heq | ⟨y', hy', hlink'⟩
    · exact absurd hlink (hpart hbelow (heq ▸ hbody'))
    · have hbelow' := hn'.trans (below_of_parts hy')
      have hsame : y = y' :=
        Option.some.inj ((ht.parent y c hbelow hlink.1).symm.trans (ht.parent y' c hbelow' hlink'.1))
      exact ih (hsame ▸ hy')

/-- The nodes with scopes are parts of the wrapper. -/
theorem Task.Shape.part_of_moves {targets : List NodeId} (hshape : t.Shape h n targets)
    (hx : x ∈ (t.moves h n).map Prod.fst) : Relation.ReflTransGen h.ListsPart n x := by
  cases hshape with
  | expression haction _ _ | constTag haction _ _ =>
    simp [moves, haction] at hx
  | snippet haction _ _ =>
    simp only [moves, haction, map_singleton, mem_singleton] at hx
    rw [hx]
  | @ifBlock owner test consequent elseOwner alternate haction hstmt _ =>
    have hplain : (h.kind n).isBody = false := by rw [hstmt]; rfl
    simp only [moves, haction, hstmt] at hx
    refine .single ⟨lists_of_kind hstmt ?_, hplain⟩
    cases alternate <;> cases elseOwner <;> simp at hx <;>
      simp [slotIds, slots, Slot.nodeIds, hx]
  | @eachBlock owner placeholder parts _ haction hloop _ =>
    rw [moves_eachBlock haction (eachParts?_eq_some.mpr hloop), map_singleton, mem_singleton] at hx
    subst hx
    obtain ⟨hn, he, -⟩ := hloop
    exact .head ⟨lists_expression hn, by rw [hn]; rfl⟩
      (.single ⟨lists_argument he, by rw [he]; rfl⟩)
  | callback haction hstmt _ _ =>
    simp only [moves, haction, hstmt, map_singleton, mem_singleton] at hx
    subst hx
    exact .single ⟨lists_expression hstmt, by rw [hstmt]; rfl⟩

/-- A node that holds statements still does when some are gone. -/
theorem Kind.isBody_dropAll {k : Kind} (hk : k.isBody = true) (gone : List NodeId) :
    (k.dropAll gone).isBody = true := by
  have hdrop : ∀ (k : Kind) (c : NodeId), k.isBody = true → (k.drop c).isBody = true := by
    intro k c hk
    unfold drop
    split
    · unfold isBody at hk
      split at hk
      · rfl
      · rfl
      · cases hk
    · exact hk
  induction gone generalizing k with
  | nil => exact hk
  | cons c gone ih => exact ih (hdrop k c hk)

/-- What is below a node of the script when some statements are gone is below it in the parsed
tree. -/
theorem Arena.below_of_kinds (hkinds : ∀ x, h.Below program x → a.kind x = (h.kind x).dropAll gone)
    (hn : h.Below program n) (hx : a.Below n x) : h.Below program x := by
  induction hx with
  | refl => exact hn
  | tail _ hlists ih =>
    refine ih.tail ?_
    rw [Lists, mem_children, hkinds _ ih] at hlists
    rw [Lists, mem_children]
    exact (childIds_dropAll_sublist ..).subset hlists

namespace Scaffolding

/-- Nodes that hold no statements are as they were parsed. -/
theorem kind_eq (hs : Scaffolding woven h program g)
    (hgone : ∀ y ∈ gone, ∃ t ∈ woven.script.tasks, h.StandsFor program t y)
    (hkinds : ∀ x, h.Below program x → a.kind x = (h.kind x).dropAll gone) (hx : h.Below program x)
    (hplain : (h.kind x).isBody = false ∨ (a.kind x).isBody = false) : a.kind x = h.kind x := by
  have hparsed : (h.kind x).isBody = false := by
    rcases hplain with hplain | hplain
    · exact hplain
    · rw [hkinds x hx] at hplain
      by_contra hbody
      rw [isBody_dropAll (Bool.not_eq_false _ ▸ hbody)] at hplain
      cases hplain
  rw [hkinds x hx]
  refine dropAll_of_notMem fun y hy hmem => ?_
  obtain ⟨t, htask, hstands⟩ := hgone y hy
  have hbody := hs.body t htask y hstands x hx (mem_children.mpr hmem)
  rw [hparsed] at hbody
  cases hbody

end Scaffolding

/-- The wrappers of a document as they stand in the parsed tree. -/
structure Wrappers (woven : Woven) (h : Arena) (program : NodeId) (done : List Match) : Prop where
  host : HostTree woven.arena h program
  task : ∀ m ∈ done, m.task ∈ woven.script.tasks
  standsFor : ∀ m ∈ done, h.StandsFor program m.task m.node
  shape : ∀ m ∈ done, m.task.Shape h m.node m.targets
  below : ∀ m ∈ done, ∀ p ∈ m.moves h, h.Below program p.1 ∧ p.1 ≠ program
  owner_lt : ∀ m ∈ done, ∀ x o, (x, some o) ∈ m.moves h → o < woven.arena.size
  nodes : ((done.flatMap (Match.moves h)).map Prod.fst).Nodup
  owners : ((done.flatMap (Match.moves h)).filterMap Prod.snd).Nodup

theorem Match.mem_owners {o : NodeId} (hmove : (x, some o) ∈ m.moves h) :
    o ∈ m.task.action.owners :=
  (m.task.owners_moves h m.node).subset (mem_filterMap.mpr ⟨_, hmove, rfl⟩)

/-- The branches of a conditional are two nodes. -/
theorem Task.nodup_moves (hnodup : (h.kind n).childIds.Nodup) :
    ((t.moves h n).map Prod.fst).Nodup := by
  unfold moves
  split
  · simp
  · simp
  · split
    · rename_i test consequent alternate hstmt
      rw [hstmt, childIds_eq] at hnodup
      split
      · simp [slotIds, slots, Slot.nodeIds] at hnodup
        simp [hnodup]
      · simp
    · simp
  · split <;> simp
  · split <;> simp
  · simp

namespace Outcome

theorem wrappers {scripts : List Fragment}
    (o : Outcome source woven scripts h program tokens comments r w done)
    (hs : Scaffolding woven h program g)
    (howners : (woven.script.tasks.flatMap (·.action.owners)).Nodup)
    (howner : ∀ x ∈ woven.script.tasks.flatMap (·.action.owners), x < woven.arena.size) :
    Wrappers woven h program done := by
  have hst := o.standing
  have hgone : ∀ y ∈ done.map Match.node, ∃ t ∈ woven.script.tasks, h.StandsFor program t y := by
    intro y hy
    obtain ⟨m, hm, rfl⟩ := mem_map.mp hy
    exact ⟨m.task, hst.task m hm, hst.standsFor hm⟩
  have hshape : ∀ m ∈ done, m.task.Shape h m.node m.targets := fun m hm =>
    (hst.shape m hm).congr fun x hx hplain =>
      (hs.kind_eq hgone hst.kind (below_of_kinds hst.kind (hst.node_below hm) hx) (.inr hplain)).symm
  have hlisted : ∀ m ∈ done, ∃ b, h.Below program b ∧ h.Lists b m.node ∧
      (h.kind b).isBody = true := by
    intro m hm
    obtain ⟨b, hb, hlists⟩ := hst.below m hm
    exact ⟨b, hb, hlists, hs.body m.task (hst.task m hm) m.node (hst.standsFor hm) b hb hlists⟩
  have hown : (done.flatMap fun m => m.task.action.owners).Nodup := by
    have hperm := (o.tasks.flatMap_right fun t => t.action.owners).nodup_iff.mpr howners
    rwa [flatMap_map] at hperm
  constructor
  case host => exact hst.host
  case task => exact hst.task
  case standsFor => exact fun m hm => hst.standsFor hm
  case shape => exact hshape
  case below =>
    intro m hm p hp
    have hpart := below_of_parts ((hshape m hm).part_of_moves (mem_map_of_mem hp))
    refine ⟨(hst.node_below hm).trans hpart, fun heq => ?_⟩
    exact hst.node_ne hm (heq ▸ hpart)
  case owner_lt =>
    intro m hm x o hmove
    exact howner o (mem_flatMap.mpr ⟨m.task, hst.task m hm, Match.mem_owners hmove⟩)
  case nodes =>
    rw [map_flatMap, nodup_flatMap]
    refine ⟨fun m hm => Task.nodup_moves ?_,
      hst.order.imp_of_mem fun {m m'} hm hm' hnot x hx hx' => hnot ?_⟩
    · exact (h.children_perm m.node).nodup_iff.mp (hst.host.nodup m.node (hst.node_below hm))
    · rw [hst.host.statement_unique (hst.node_below hm) (hst.node_below hm') (hlisted m hm)
        (hlisted m' hm') ((hshape m hm).part_of_moves hx) ((hshape m' hm').part_of_moves hx')]
      exact .refl
  case owners =>
    rw [nodup_flatMap] at hown
    rw [filterMap_flatMap, nodup_flatMap]
    refine ⟨fun m hm => (hown.1 m hm).sublist (m.task.owners_moves h m.node),
      hown.2.imp fun {m m'} hdisj => ?_⟩
    exact fun x hx hx' =>
      hdisj ((m.task.owners_moves h m.node).subset hx) ((m'.task.owners_moves h m'.node).subset hx')

end Outcome

/-- The state of the scopes when the wrappers `before` were undone and the wrappers `after` are
still there. -/
structure Reconciling (woven : Woven) (h : Arena) (g0 : ScopeGraph) (before after : List Match)
    (g : ScopeGraph) : Prop where
  sound : g.Sound
  moved : Moved (before.flatMap (Match.moves h)) g0 g
  mentions : FewerMentions g0 g
  arrays : ∀ m ∈ before, ∀ i, m.task.array? h m.node = some i → ¬ g.Mentioned i
  definitions : ∀ s name i, g.DefinedAt s name i → woven.Copied h i ∨
    ∃ m ∈ after, ∃ callback, m.task.placeholder? h m.node = some (callback, i) ∧
      h.kind i = .identifier name ∧ g.Belongs s callback

namespace Reconciling

section Step

variable (hr : Reconciling woven h g0 before (m :: after) g)
  (hw : Wrappers woven h program (before ++ m :: after)) (hs : Scaffolding woven h program g0)

include hw in
/-- A node of a wrapper that is still there has not lost its scope and does not get another one. -/
theorem untouched (hm' : m' ∈ m :: after) (hx : x ∈ (m'.moves h).map Prod.fst) :
    x ∉ (before.flatMap (Match.moves h)).map Prod.fst ∧
      ∀ y, (y, some x) ∉ (before ++ m :: after).flatMap (Match.moves h) := by
  obtain ⟨p, hp, rfl⟩ := mem_map.mp hx
  have hnodes := hw.nodes
  rw [flatMap_append, map_append] at hnodes
  constructor
  · intro hbefore
    exact (nodup_append.mp hnodes).2.2 _ hbefore _ (mem_map_of_mem (mem_flatMap.mpr ⟨m', hm', hp⟩))
      rfl
  · intro y hy
    obtain ⟨m0, hm0, hy⟩ := mem_flatMap.mp hy
    have hbelow := (hw.below m' (mem_append_right _ hm') p hp).1
    exact not_lt.mpr (hw.host.fresh p.1 hbelow) (hw.owner_lt m0 hm0 y p.1 hy)

include hr hw in
theorem belongs_iff (hm' : m' ∈ m :: after) (hx : x ∈ (m'.moves h).map Prod.fst) (s : ScopeId) :
    g.Belongs s x ↔ g0.Belongs s x := by
  obtain ⟨hkept, hother⟩ := untouched hw hm' hx
  rw [hr.moved.belongs]
  constructor
  · rintro (⟨hs, -⟩ | ⟨y, -, hy⟩)
    · exact hs
    · rw [flatMap_append] at hother
      exact absurd (mem_append_left _ hy) (hother y)
  · exact fun hs => .inl ⟨hs, hkept⟩

include hr hw hs

theorem single (hm' : m' ∈ m :: after) (hx : x ∈ (m'.moves h).map Prod.fst) (s s' : ScopeId)
    (hsx : g.Belongs s x) (hsx' : g.Belongs s' x) : s = s' := by
  have hmem : m' ∈ before ++ m :: after := mem_append_right _ hm'
  obtain ⟨s0, hget⟩ := hs.scope m'.task (hw.task m' hmem) m'.node (hw.standsFor m' hmem) x hx
  have honly := hs.indexed.get_eq_singleton.mp hget
  rw [belongs_iff hr hw hm' hx, honly] at hsx hsx'
  rw [hsx, hsx']

theorem upper_ne_none (hx : x ∈ (m.moves h).map Prod.fst) (s : ScopeId) (hsx : g.Belongs s x) :
    (g.scopeAt s).upper ≠ none := by
  intro htop
  obtain ⟨p, hp, rfl⟩ := mem_map.mp hx
  have hold := (belongs_iff hr hw mem_cons_self hx s).mp hsx
  have hblock := hs.top s hold.1 (hr.moved.upper s hsx.1 htop)
  exact (hw.below m (mem_append_right _ mem_cons_self) p hp).2 (hold.2.symm.trans hblock)

theorem moved_step (hshape : m.task.Shape a m.node m.targets)
    (hmoves : m.moves h = m.task.moves a m.node) :
    Moved (m.moves h) g (m.task.reconcile a m.node m.targets g) := by
  have hnodes := hw.nodes
  rw [flatMap_append, flatMap_cons, map_append, map_append] at hnodes
  have hown := (nodup_append.mp (nodup_append.mp hnodes).2.1).1
  have howner : ∀ x ∈ (m.moves h).map Prod.fst, ∀ y, (y, some x) ∉ m.moves h := by
    intro x hx y hy
    refine (untouched hw mem_cons_self hx).2 y (mem_flatMap.mpr ⟨m, ?_, hy⟩)
    exact mem_append_right _ mem_cons_self
  have hsingle := fun x hx => single hr hw hs (x := x) mem_cons_self hx
  have hupper := fun x hx => upper_ne_none hr hw hs (x := x) hx
  rw [hmoves] at hown howner hsingle hupper ⊢
  exact hshape.moved_reconcile hr.sound hr.moved.indexed hown howner hsingle hupper

/-- A definition on scaffolding is that of a placeholder whose loop is still there. -/
theorem definitions_step (hsize : 0 < a.size)
    (hkind : ∀ x, h.Below program x → (h.kind x).isBody = false →
      a.kind x = h.kind x) (hshape : m.task.Shape a m.node m.targets)
    (hmoves : m.moves h = m.task.moves a m.node)
    (hhole : m.task.placeholder? h m.node = m.task.placeholder? a m.node) {s : ScopeId}
    {name : String}
    {i : NodeId} (hdef : (m.task.reconcile a m.node m.targets g).DefinedAt s name i) :
    woven.Copied h i ∨ ∃ m' ∈ after, ∃ callback,
      m'.task.placeholder? h m'.node = some (callback, i) ∧
      h.kind i = .identifier name ∧ (m.task.reconcile a m.node m.targets g).Belongs s callback := by
  have hstep := moved_step hr hw hs hshape hmoves
  have hnodes := hw.nodes
  rw [flatMap_append, flatMap_cons, map_append, map_append] at hnodes
  have hapart : ∀ m' ∈ after, ∀ x ∈ (m'.moves h).map Prod.fst, x ∉ (m.moves h).map Prod.fst := by
    intro m' hm' x hx hx'
    obtain ⟨p, hp, rfl⟩ := mem_map.mp hx
    refine (nodup_append.mp (nodup_append.mp hnodes).2.1).2.2 p.1 hx' p.1 ?_ rfl
    exact mem_map_of_mem (mem_flatMap.mpr ⟨m', hm', hp⟩)
  rcases hshape.definedAt_reconcile hr.sound hr.moved.indexed
    hdef with hsame | ⟨src, e, hsrc, he, hsource⟩
  · rcases hr.definitions s name i hsame with hcopied | ⟨m', hm', callback, hloop, hident, hcall⟩
    · exact .inl hcopied
    have hkey := Task.mem_moves_of_placeholder hloop
    rcases mem_cons.mp hm' with rfl | hm'
    · -- The placeholder of this wrapper has just been removed.
      have hstands := hw.standsFor m' (mem_append_right _ mem_cons_self)
      have hbelow := hstands.below.trans (Task.below_of_placeholder hloop)
      have hi : a.kind i = .identifier name := (hkind i hbelow (by rw [hident]; rfl)).trans hident
      exact absurd hdef (Task.not_definedAt_reconcile hr.sound hr.moved.indexed (hhole ▸ hloop) hi hsize
        (single hr hw hs mem_cons_self hkey) hcall)
    · refine .inr ⟨m', hm', callback, hloop, hident, (hstep.belongs s callback).mpr (.inl ⟨hcall, ?_⟩)⟩
      exact hapart m' hm' callback hkey
  · -- The variables of a dissolved scope are none of a loop.
    rw [← hmoves] at he
    rcases hr.definitions src name i hsource with hcopied | ⟨m', hm', callback, hloop, -, hcall⟩
    · exact .inl hcopied
    have hkey := Task.mem_moves_of_placeholder hloop
    obtain rfl : e = callback := hsrc.2.symm.trans hcall.2
    rcases mem_cons.mp hm' with rfl | hm'
    · rw [Task.placeholder?_of_dissolved he] at hloop
      cases hloop
    · exact absurd (mem_map_of_mem he) (hapart m' hm' e hkey)

end Step

/-- Undoing one more wrapper. -/
theorem step (hr : Reconciling woven h g0 before (m :: after) g)
    (hw : Wrappers woven h program (before ++ m :: after))
    (hs : Scaffolding woven h program g0) (hsize : a.size = h.size)
    (hgone : ∀ y ∈ gone, ∃ t ∈ woven.script.tasks, h.StandsFor program t y)
    (hkinds : ∀ x, h.Below program x → a.kind x = (h.kind x).dropAll gone)
    (hshape : m.task.Shape a m.node m.targets) :
    Reconciling woven h g0 (before ++ [m]) after (m.task.reconcile a m.node m.targets g) := by
  have hm : m ∈ before ++ m :: after := mem_append_right _ mem_cons_self
  have hstands := hw.standsFor m hm
  have hsame : ∀ x, a.Below m.node x → (a.kind x).isBody = false →
      h.kind x = a.kind x := fun x hx hplain =>
    (hs.kind_eq hgone hkinds (below_of_kinds hkinds hstands.below hx) (.inr hplain)).symm
  obtain ⟨hmoves, harray, hhole⟩ := hshape.parts_congr hsame
  have hfewer := hshape.fewerMentions_reconcile (g := g)
  constructor
  case sound => exact Undoing.sound_reconcile hr.sound ⟨m.task, a, m.node, m.targets⟩
  case moved =>
    rw [flatMap_append, flatMap_singleton]
    refine hr.moved.trans (moved_step hr hw hs hshape hmoves) (fun x hx => ?_) fun x hx y hy => ?_
    · exact (untouched hw mem_cons_self hx).1
    · refine (untouched hw mem_cons_self hx).2 y ?_
      rw [flatMap_append]
      exact mem_append_left _ hy
  case mentions => exact hr.mentions.trans hfewer
  case arrays =>
    refine forall_mem_append.mpr ⟨fun m' hm' i hi hmention => ?_,
      forall_mem_singleton.mpr fun i hi => ?_⟩
    · exact hr.arrays m' hm' i hi (hfewer.mentioned hmention)
    · obtain ⟨q, hq⟩ := hs.reference m.task (hw.task m hm) m.node hstands i hi
      exact Task.not_mentioned_reconcile hr.sound (hr.mentions.filed hs.filed) (harray ▸ hi)
        (hr.mentions.index ▸ hq)
  case definitions =>
    intro s name i hdef
    have hpos : 0 < a.size := hsize ▸ (Nat.zero_le _).trans_lt (hw.host.bounded program .refl)
    exact definitions_step hr hw hs hpos
      (fun x hx hplain => hs.kind_eq hgone hkinds hx (.inl hplain)) hshape hmoves hhole hdef

/-- Undoing all the wrappers that are left. -/
theorem run {ms : List Match} (hr : Reconciling woven h g0 before ms g)
    (hreconciled : Reconciled woven.script.tasks h program ms g g')
    (hw : Wrappers woven h program (before ++ ms))
    (hs : Scaffolding woven h program g0) : Reconciling woven h g0 (before ++ ms) [] g' := by
  induction hreconciled generalizing before with
  | nil g => rwa [append_nil]
  | @cons m ms g g' a gone hsize hgone hkinds hshape _ ih =>
    have hnext := hr.step hw hs hsize hgone hkinds hshape
    have hsplit : before ++ m :: ms = before ++ [m] ++ ms := by simp
    rw [hsplit] at hw ⊢
    exact ih hnext hw

end Reconciling

/-- When scaffolding has only the scopes, references and definitions of its wrappers, a successful
restore leaves none of them on it. Every live scope is that of the program, of a markup node or of
copied text, references and definitions are made on copied text, and the scopes of each wrapper went
to its markup nodes, except that of a callback without parameters, which is gone. -/
theorem restore_clears_scaffolding {d : Template.Document} {scopes : ScopeGraph}
    (hd : d.rangeFault? source = none)
    (ht : HostTree (weave (.ofText source) d .empty).arena h program)
    (hsound : scopes.Sound) (hs : Scaffolding (weave (.ofText source) d .empty) h program scopes)
    (hok : restore (.ofText source) (weave (.ofText source) d .empty).script h scopes program tokens
      comments (weave (.ofText source) d .empty).roots = .ok r) :
    (∀ s n, r.scopes.Belongs s n → n = program ∨ n < (weave (.ofText source) d .empty).arena.size ∨
        (h.Below program n ∧ (weave (.ofText source) d .empty).Copied h n)) ∧
      (∀ i, r.scopes.Mentioned i → (weave (.ofText source) d .empty).Copied h i) ∧
      (∀ s name i, r.scopes.DefinedAt s name i → (weave (.ofText source) d .empty).Copied h i) ∧
      ∀ t ∈ (weave (.ofText source) d .empty).script.tasks, ∃ n, h.StandsFor program t n ∧
        ∀ heir ∈ t.heirs, ∃ x s, (x, heir) ∈ t.moves h n ∧ scopes.nodeScopes.get x = [s] ∧
          match heir with
          | some owner => r.scopes.nodeScopes.get owner = [s]
          | none => ¬ r.scopes.LiveScope s := by
  obtain ⟨scripts, w, done, o, hreconciled⟩ := restore_reconciled hd ht hok
  obtain ⟨howners, howner⟩ := weave_owners (.ofText source) d .empty
  have hw := o.wrappers hs howners howner
  have hundone : ∀ t ∈ (weave (.ofText source) d .empty).script.tasks, ∃ m ∈ done, m.task = t :=
    fun t htask => mem_map.mp (o.tasks.mem_iff.mpr htask)
  have hdone : ∀ t ∈ (weave (.ofText source) d .empty).script.tasks, ∀ n, h.StandsFor program t n →
      ∃ m ∈ done, m.task = t ∧ m.node = n := by
    intro t htask n hn
    obtain ⟨m, hm, rfl⟩ := hundone t htask
    exact ⟨m, hm, rfl, hs.statement m.task htask _ _ (hw.standsFor m hm) hn⟩
  have hstart : Reconciling (weave (.ofText source) d .empty) h scopes [] done scopes := by
    refine ⟨hsound, .refl hs.indexed, .refl _, by simp, ?_⟩
    intro s name i hdef
    rcases hs.definitions s name i hdef with hcopied | ⟨t, htask, n, callback, hn, hloop, hkind,
      hcall⟩
    · exact .inl hcopied
    · obtain ⟨m, hm, rfl, rfl⟩ := hdone t htask n hn
      exact .inr ⟨m, hm, callback, hloop, hkind, hcall⟩
  have hend := hstart.run hreconciled hw hs
  have hmoves : ∀ m ∈ done, ∀ p ∈ m.task.moves h m.node, p ∈ done.flatMap (Match.moves h) :=
    fun m hm p hp => mem_flatMap.mpr ⟨m, hm, hp⟩
  refine ⟨fun s n hn => ?_, fun i hi => ?_, fun s name i hi => ?_, fun t htask => ?_⟩
  · rcases (hend.moved.belongs s n).mp hn with ⟨hold, hkept⟩ | ⟨x, -, hmove⟩
    · obtain ⟨hbelow, rfl | hcopied | ⟨t, htask, k, hk, hpart⟩⟩ := hs.scopes s n hold
      · exact .inl rfl
      · exact .inr (.inr ⟨hbelow, hcopied⟩)
      · obtain ⟨m, hm, rfl, rfl⟩ := hdone t htask k hk
        obtain ⟨p, hp, rfl⟩ := mem_map.mp hpart
        exact absurd (mem_map_of_mem (hmoves m hm p hp)) hkept
    · obtain ⟨m, hm, hmove⟩ := mem_flatMap.mp hmove
      exact .inr (.inl (hw.owner_lt m hm x n hmove))
  · rcases hs.references i (hend.mentions.mentioned hi) with hcopied | ⟨t, htask, n, hn, harray⟩
    · exact hcopied
    · obtain ⟨m, hm, rfl, rfl⟩ := hdone t htask n hn
      exact absurd hi (hend.arrays m hm i harray)
  · rcases hend.definitions s name i hi with hcopied | ⟨m, hm, -⟩
    · exact hcopied
    · cases hm
  · obtain ⟨m, hm, rfl⟩ := hundone t htask
    have hn := hw.standsFor m hm
    refine ⟨m.node, hn, fun heir hheir => ?_⟩
    rw [← hs.heirs m.task htask m.node hn] at hheir
    obtain ⟨⟨x, heir⟩, hmove, rfl⟩ := mem_map.mp hheir
    obtain ⟨s, hx⟩ := hs.scope m.task htask m.node hn x (mem_map_of_mem hmove)
    refine ⟨x, s, hmove, hx, ?_⟩
    cases heir with
    | some owner =>
      refine hend.moved.get_owner hs.indexed hw.owners (hmoves m hm _ hmove) hx fun s' hs' => ?_
      -- The parsed script has no scope on markup nodes.
      exact not_lt.mpr (ht.fresh owner (hs.scopes s' owner hs').1) (hw.owner_lt m hm x owner hmove)
    | none =>
      have hbelongs := (hs.indexed.get_eq_singleton.mp hx s).mpr rfl
      exact hend.moved.not_live hw.nodes (hmoves m hm _ hmove) hbelongs

/-- A loop with an index and no name for the item. -/
def Sample.loop : Sample where
  source := "\x7b#each xs, i\x7d\x7b/each\x7d".toList
  document := ⟨[], [.eachBlock ⟨0, 20⟩ ⟨7, 9⟩ none (some ⟨11, 12⟩) none [] none]⟩
  recording :=
    { nodes := [(.identifier "Array", ⟨0, 5⟩), (.identifier "from", ⟨6, 10⟩),
        (.memberExpression 0 1 false false, ⟨0, 10⟩), (.identifier "xs", ⟨11, 13⟩),
        (.callExpression 2 [3] false, ⟨0, 14⟩), (.identifier "forEach", ⟨15, 22⟩),
        (.memberExpression 4 5 false false, ⟨0, 22⟩), (.identifier "__each_item", ⟨24, 35⟩),
        (.identifier "i", ⟨37, 38⟩), (.blockStatement [], ⟨43, 46⟩),
        (.arrowFunction [7, 8] 9 false false, ⟨23, 46⟩), (.callExpression 6 [10] false, ⟨0, 47⟩),
        (.expressionStatement 11, ⟨0, 48⟩), (.emptyStatement, ⟨50, 51⟩), (.program .module [12, 13], ⟨0, 51⟩)]
      program := 14
      tokens := []
      comments := []
      scopes :=
      [.addScope .global 14 none, .addScope .module 14 (some 0), .addScope .function 10 (some 1),
        .declare 2 "__each_item" 7 .parameter, .declare 2 "i" 8 .parameter, .addReference 1 0 "Array" .read false,
        .addReference 1 3 "xs" .read false, .resolve 0, .resolve 1] }

namespace Sample

theorem loop_below {x : NodeId} (hx : loop.parsed.1.Below loop.parsed.2.program x) :
    x ∈ List.range' 1 15 :=
  mem_of_below (by decide +kernel) (by decide +kernel) hx

theorem loop_hostTree : HostTree loop.woven.arena loop.parsed.1 loop.parsed.2.program :=
  .of_nodes (List.range' 1 15) (by decide +kernel) (Recording.node_play _ _ _) (by decide +kernel)
    (by decide +kernel)

theorem loop_sound : loop.parsed.2.scopes.Sound where
  wellFormed := .of_run (by decide +kernel) (by decide +kernel)
  filed := .of_entries (by unfold NodeIndex.Keyed; decide +kernel) (by decide +kernel)
  global := by decide +kernel
  root := by decide +kernel

theorem loop_task :
    ∃ t, loop.woven.script.tasks = [t] ∧ t.range = ⟨0, 48⟩ ∧ t.action = .eachBlock 0 true := by
  have htasks : (loop.woven.script.tasks.map fun t => (t.range, t.action)) =
      [(⟨0, 48⟩, .eachBlock 0 true)] := by cbv
  obtain ⟨t, ts, hsplit, htask, hnil⟩ := map_eq_cons_iff.mp htasks
  obtain rfl := map_eq_nil_iff.mp hnil
  exact ⟨t, hsplit, Prod.mk.inj htask⟩

theorem loop_parts : loop.parsed.1.eachParts? 13 = some ⟨1, 4, 11, [8, 9]⟩ := by cbv

/-- The statement of the loop. -/
theorem loop_standsFor (hrange : t.range = ⟨0, 48⟩) (n : NodeId) :
    loop.parsed.1.StandsFor loop.parsed.2.program t n ↔ n = 13 := by
  have honly : ∀ n ∈ List.range' 1 15, loop.parsed.1.range n = ⟨0, 48⟩ → n = 13 := by decide +kernel
  constructor
  · exact fun hn => honly n (loop_below hn.below) (hn.range.trans hrange)
  · rintro rfl
    have hmem : 13 ∈ loop.parsed.1.descendants loop.parsed.2.program := by decide +kernel
    refine ⟨below_of_mem_within hmem, ?_, fun x hx _ _ hne heq => ?_⟩
    · rw [hrange]
      decide +kernel
    · exact hne (honly x (loop_below hx) (heq.trans hrange))

theorem loop_scaffolding : Scaffolding loop.woven loop.parsed.1 loop.parsed.2.program loop.parsed.2.scopes := by
  have hscopes : ∀ s < loop.parsed.2.scopes.scopes.size, s ∈ loop.parsed.2.scopes.nodeScopes.get
        (loop.parsed.2.scopes.scopeAt s).block ∧
      ((loop.parsed.2.scopes.scopeAt s).upper = none → (loop.parsed.2.scopes.scopeAt s).block =
        loop.parsed.2.program) ∧
      (loop.parsed.2.scopes.scopeAt s).block ∈ loop.parsed.1.descendants loop.parsed.2.program ∧
      ((loop.parsed.2.scopes.scopeAt s).block = loop.parsed.2.program ∨
        (loop.parsed.2.scopes.scopeAt s).block = 11) := by
    decide +kernel
  have hrefs : ∀ q < loop.parsed.2.scopes.references.size,
      q ∈ loop.parsed.2.scopes.identifierReferences.get (loop.parsed.2.scopes.referenceAt q).identifier ∧
      ((loop.woven.script.mapStart
        (loop.parsed.1.range (loop.parsed.2.scopes.referenceAt q).identifier).start).isSome =
        true ∨ (loop.parsed.2.scopes.referenceAt q).identifier = 1) := by
    decide +kernel
  have hvars : ∀ v < loop.parsed.2.scopes.vars.size, ∀ i,
      i ∈ (loop.parsed.2.scopes.variableAt v).identifiers ++
        (loop.parsed.2.scopes.variableAt v).defs.map (·.name) →
      (loop.woven.script.mapStart (loop.parsed.1.range i).start).isSome = true ∨
        (i = 8 ∧ (loop.parsed.2.scopes.variableAt v).name = "__each_item" ∧
          (loop.parsed.2.scopes.variableAt v).scope = 2) := by
    decide +kernel
  obtain ⟨t, htasks, hrange, haction⟩ := loop_task
  have hthere : t ∈ loop.woven.script.tasks := htasks ▸ mem_singleton_self t
  have hstands := (loop_standsFor hrange 13).mpr rfl
  have hone : ∀ t' ∈ loop.woven.script.tasks, ∀ n,
      loop.parsed.1.StandsFor loop.parsed.2.program t' n → t' = t ∧ n = 13 := by
    intro t' ht' n hn
    rw [htasks, mem_singleton] at ht'
    subst ht'
    exact ⟨rfl, (loop_standsFor hrange n).mp hn⟩
  have hmoves := Task.moves_eachBlock haction loop_parts
  have harray : t.array? loop.parsed.1 13 = some 1 := by simp [Task.array?, haction, loop_parts]
  have hhole : t.placeholder? loop.parsed.1 13 =
      some (11, 8) := by simp [Task.placeholder?, haction, loop_parts]
  constructor
  case statement =>
    intro t' ht' n n' hn hn'
    rw [(hone t' ht' n hn).2, (hone t' ht' n' hn').2]
  case body =>
    intro t' ht' n hn x hx hlists
    obtain ⟨rfl, rfl⟩ := hone t' ht' n hn
    have hbody : ∀ x ∈ List.range' 1 15, 13 ∈ loop.parsed.1.children x →
        (loop.parsed.1.kind x).isBody = true := by
      decide +kernel
    exact hbody x (loop_below hx) hlists
  case indexed => exact .of_entries loop_sound.filed (by decide +kernel) fun s hs _ => (hscopes s hs).1
  case top => exact fun s hs => (hscopes s hs.1).2.1
  case scopes =>
    rintro s x ⟨hs, rfl⟩
    obtain ⟨-, -, hmem, hblock⟩ := hscopes s hs.1
    refine ⟨below_of_mem_within hmem, hblock.imp_right fun heq => .inr ⟨t, hthere, 13, hstands, ?_⟩⟩
    rw [heq, hmoves]
    exact mem_singleton_self _
  case heirs =>
    intro t' ht' n hn
    obtain ⟨rfl, rfl⟩ := hone t' ht' n hn
    rw [hmoves, Task.heirs, haction]
    rfl
  case scope =>
    intro t' ht' n hn x hx
    obtain ⟨rfl, rfl⟩ := hone t' ht' n hn
    rw [hmoves] at hx
    obtain rfl := mem_singleton.mp hx
    exact ⟨2, by decide +kernel⟩
  case filed => exact fun q hq => (hrefs q hq.1).1
  case references =>
    rintro i ⟨q, hq, rfl⟩
    refine (hrefs q hq.1).2.imp_right fun heq => ⟨t, hthere, 13, hstands, ?_⟩
    rw [harray, heq]
  case reference =>
    intro t' ht' n hn i hi
    obtain ⟨rfl, rfl⟩ := hone t' ht' n hn
    obtain rfl := Option.some.inj (harray.symm.trans hi)
    exact ⟨0, by decide +kernel⟩
  case definitions =>
    rintro s name i ⟨v, hv, rfl, rfl, hdefines⟩
    have hplace := hvars v hv.1 i (mem_append.mpr (hdefines.imp_right fun hd => mem_map.mpr hd))
    refine hplace.imp_right ?_
    rintro ⟨hi, hname, hscope⟩
    refine ⟨t, hthere, 13, 11, hstands, ?_, ?_, ?_⟩
    · rw [hi, hhole]
    · rw [hi, hname]
      cbv
    · rw [hscope]
      exact ⟨by decide +kernel, by decide +kernel⟩

end Sample

theorem restore_clears_scaffolding_loop : ∃ r, loop.restored = .ok r ∧
    (∀ i, r.scopes.Mentioned i → loop.woven.Copied loop.parsed.1 i) ∧
    (∀ s name i, r.scopes.DefinedAt s name i → loop.woven.Copied loop.parsed.1 i) ∧
    ∃ s, loop.parsed.2.scopes.nodeScopes.get 11 = [s] ∧ r.scopes.nodeScopes.get 0 = [s] := by
  obtain ⟨r, hr⟩ := restored_ok (s := loop) (by cbv)
  obtain ⟨-, hrefs, hdefinitions, hheirs⟩ :=
    restore_clears_scaffolding (by decide) loop_hostTree loop_sound loop_scaffolding hr
  obtain ⟨t, htasks, hrange, haction⟩ := loop_task
  obtain ⟨n, hn, hwrapper⟩ := hheirs t (htasks ▸ mem_singleton_self t)
  obtain rfl := (loop_standsFor hrange n).mp hn
  obtain ⟨x, s, hmove, hscope, howner⟩ := hwrapper (some 0) (by simp [Task.heirs, haction])
  rw [Task.moves_eachBlock haction loop_parts, mem_singleton] at hmove
  obtain rfl := (Prod.mk.inj hmove).1
  exact ⟨r, hr, hrefs, hdefinitions, s, hscope, howner⟩

theorem Sample.dangling_sound : dangling.parsed.2.scopes.Sound where
  wellFormed := .of_run (by decide +kernel) (by decide +kernel)
  filed := .of_entries (by unfold NodeIndex.Keyed; decide +kernel) (by decide +kernel)
  global := by decide +kernel
  root := by decide +kernel

/-- The branch of the second conditional keeps its scope: the scope of the wrapper stays on
scaffolding, and its markup node has none. -/
theorem dangling_keeps_branch_scope : dangling.parsed.2.scopes.Sound ∧
    ∃ r, dangling.restored = .ok r ∧ r.scopes.nodeScopes.get 0 = [] ∧
      ∃ s n, r.scopes.Belongs s n ∧ n ≠ dangling.parsed.2.program ∧
        dangling.woven.arena.size ≤ n ∧ ¬ dangling.woven.Copied dangling.parsed.1 n := by
  have hscopes :
    (dangling.restored.toOption.map fun r => (r.scopes.nodeScopes.get 0, r.scopes.scopes.size,
      (r.scopes.scopeAt 2).removed, (r.scopes.scopeAt 2).block)) = some ([], 3, false, 3) := by
    cbv
  obtain ⟨r, hr, hshown⟩ := restored_shows hscopes
  simp only [Prod.mk.injEq] at hshown
  obtain ⟨hmarkup, hsize, hrem, hblock⟩ := hshown
  have hlive : r.scopes.LiveScope 2 := ⟨hsize ▸ (by decide), hrem⟩
  refine ⟨dangling_sound, r, hr, hmarkup, 2, 3, ⟨hlive, hblock⟩, ?_, ?_, ?_⟩
  · decide +kernel
  · decide +kernel
  · unfold Woven.Copied
    decide +kernel

end Loom
