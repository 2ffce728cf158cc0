import Loom.Proofs.Scope.Sound
import Mathlib.Data.List.Pairwise

/-!
The nodes that scopes belong to.

Edits give the scope of a node to another node, or dissolve it. A list of such moves says where
every scope is afterwards, when the nodes that lose their scopes are different and none of them gets
one.
-/

open List

namespace Loom.ScopeGraph

variable {g g1 g' : ScopeGraph} {s t : ScopeId} {n m : NodeId}

/-- A live scope belongs to a node. -/
def Belongs (g : ScopeGraph) (s : ScopeId) (n : NodeId) : Prop :=
  g.LiveScope s ∧ (g.scopeAt s).block = n

/-- The index files the live scopes under their nodes, each once. -/
structure Indexed (g : ScopeGraph) : Prop where
  keyed : g.nodeScopes.Keyed
  nodup : ∀ n, (g.nodeScopes.get n).Nodup
  mem : ∀ n s, s ∈ g.nodeScopes.get n ↔ g.Belongs s n

theorem belongs_congr (hl : g'.LiveScope = g.LiveScope) (hn : g'.nodeView = g.nodeView) :
    g'.Belongs = g.Belongs := by
  funext s n
  have hblock : (g'.scopeAt s).block = (g.scopeAt s).block := congrFun (congrArg Prod.snd hn) s
  rw [Belongs, Belongs, hl, hblock]

namespace Indexed

theorem filed (h : g.Indexed) : g.Filed := ⟨h.keyed, fun n s hs => (h.mem n s).mp hs⟩

theorem congr (h : g.Indexed) (hl : g'.LiveScope = g.LiveScope) (hn : g'.nodeView = g.nodeView) :
    g'.Indexed := by
  have hindex : g'.nodeScopes = g.nodeScopes := congrArg Prod.fst hn
  refine ⟨hindex ▸ h.keyed, hindex ▸ h.nodup, fun n s => ?_⟩
  rw [hindex, belongs_congr hl hn]
  exact h.mem n s

theorem belongs_acquire (h : g.Indexed) (hs : g.acquire? n = some s) : g.Belongs s n :=
  (h.mem n s).mp (mem_of_mem_head? hs)

theorem not_belongs (h : g.Indexed) (hn : g.acquire? n = none) (s : ScopeId) : ¬ g.Belongs s n := by
  rw [← h.mem, head?_eq_none_iff.mp hn]
  exact not_mem_nil

/-- It is enough to check the entries and the live scopes. -/
theorem of_entries (hfiled : g.Filed) (hnodup : ∀ e ∈ g.nodeScopes, e.2.Nodup)
    (hlive : ∀ s < g.scopes.size, g.LiveScope s → s ∈ g.nodeScopes.get (g.scopeAt s).block) :
    g.Indexed := by
  refine ⟨hfiled.keyed, fun n => ?_, fun n s => ⟨hfiled.live n s, ?_⟩⟩
  · unfold NodeIndex.get
    cases hlookup : g.nodeScopes.lookup n with
    | none => exact nodup_nil
    | some is =>
      obtain ⟨l, l', heq, -⟩ := lookup_eq_some_iff.mp hlookup
      exact hnodup (n, is) (by rw [heq]; simp)
  · rintro ⟨hs, rfl⟩
    exact hlive s hs.1 hs

/-- The scopes of a node are told by what belongs to it. -/
theorem get_eq_singleton (h : g.Indexed) :
    g.nodeScopes.get n = [s] ↔ ∀ t, g.Belongs t n ↔ t = s := by
  constructor
  · intro hget t
    rw [← h.mem, hget, mem_singleton]
  · intro hs
    refine perm_singleton.mp ((perm_ext_iff_of_nodup (h.nodup n) (by simp)).mpr fun t => ?_)
    rw [h.mem, hs, mem_singleton]

end Indexed

/-! Giving a scope away. -/

theorem belongs_registerNode (hs : g.LiveScope s) :
    (g.registerNode n s).Belongs t m ↔ if t = s then m = n else g.Belongs t m := by
  rw [Belongs, liveScope_congr treeView_registerNode, block_registerNode hs.1]
  split
  · rename_i hts
    subst hts
    rw [and_iff_right hs, eq_comm]
  · rfl

theorem Indexed.registerNode (h : g.Indexed) (hs : g.LiveScope s) :
    (g.registerNode n s).Indexed := by
  refine ⟨(h.keyed.remove ..).push .., fun m => ?_, fun m t => ?_⟩
  · refine NodeIndex.nodup_get_push (h.keyed.nodup_get_remove _ _ (h.nodup m)) ?_
    rw [h.filed.mem_remove]
    exact fun hmem => hmem.2 rfl
  · rw [h.filed.mem_registerNode, belongs_registerNode hs, h.mem]

/-- A scope that goes takes its entry with it. -/
theorem Indexed.drop {src : ScopeId} (h : g.Indexed)
    (hlive : ∀ t, g'.LiveScope t ↔ g.LiveScope t ∧ t ≠ src)
    (hblock : ∀ t, t ≠ src → (g'.scopeAt t).block = (g.scopeAt t).block)
    (hindex : g'.nodeScopes = g.nodeScopes.remove (g.scopeAt src).block src) : g'.Indexed := by
  refine ⟨hindex ▸ h.keyed.remove .., fun n => ?_, fun n s => ?_⟩
  · rw [hindex]
    exact h.keyed.nodup_get_remove _ _ (h.nodup n)
  · rw [hindex, h.filed.mem_remove, h.mem, Belongs, Belongs, hlive, and_right_comm]
    exact and_congr_right fun hs => by rw [hblock s hs.2]

/-! Moves. -/

/-- The moves of a list were made: the scope of the first node of each pair went to the second one,
or was dissolved. -/
structure Moved (moves : List (NodeId × Option NodeId)) (g g' : ScopeGraph) : Prop where
  indexed : g'.Indexed
  belongs : ∀ s n, g'.Belongs s n ↔ (g.Belongs s n ∧ n ∉ moves.map Prod.fst) ∨ ∃ x,
    g.Belongs s x ∧ (x, some n) ∈ moves
  upper : ∀ s, g'.LiveScope s → (g'.scopeAt s).upper = none → (g.scopeAt s).upper = none

namespace Moved

variable {moves moves' : List (NodeId × Option NodeId)} {x owner : NodeId}

theorem refl (h : g.Indexed) : Moved [] g g := ⟨h, by simp, fun _ _ => id⟩

/-- Exactly the scope of a node is that of its owner afterwards. -/
theorem get_owner (h : Moved moves g g') (hg : g.Indexed)
    (howners : (moves.filterMap Prod.snd).Nodup)
    (hmove : (x, some owner) ∈ moves) (hx : g.nodeScopes.get x = [s])
    (hnew : ∀ t, ¬ g.Belongs t owner) : g'.nodeScopes.get owner = [s] := by
  have honly := hg.get_eq_singleton.mp hx
  have hsource : ∀ y, (y, some owner) ∈ moves → y = x := by
    intro y hy
    by_contra hne
    let apart : NodeId × Option NodeId → NodeId × Option NodeId → Prop :=
      fun p q => ∀ b, p.2 = some b → ∀ b', q.2 = some b' → b ≠ b'
    have : Std.Symm apart := ⟨fun p q hpq b hb b' hb' => (hpq b' hb' b hb).symm⟩
    have hapart := pairwise_filterMap.mp howners
    exact hapart.forall hy hmove (fun heq => hne (congrArg Prod.fst heq)) owner rfl owner rfl rfl
  refine h.indexed.get_eq_singleton.mpr fun t => ?_
  rw [h.belongs]
  constructor
  · rintro (⟨ht, -⟩ | ⟨y, ht, hy⟩)
    · exact absurd ht (hnew t)
    · exact (honly t).mp (hsource y hy ▸ ht)
  · rintro rfl
    exact .inr ⟨x, (honly t).mpr rfl, hmove⟩

/-- The scope of a node without an owner is not live afterwards. -/
theorem not_live (h : Moved moves g g') (hnodes : (moves.map Prod.fst).Nodup)
    (hmove : (x, none) ∈ moves) (hs : g.Belongs s x) : ¬ g'.LiveScope s := by
  intro hlive
  rcases (h.belongs s _).mp ⟨hlive, rfl⟩ with ⟨hbelongs, hnot⟩ | ⟨y, hbelongs, hy⟩
  · rw [← hbelongs.2, hs.2] at hnot
    exact hnot (mem_map_of_mem hmove)
  · obtain rfl : y = x := hbelongs.2.symm.trans hs.2
    cases inj_on_of_nodup_map hnodes hy hmove rfl

theorem live (h : Moved moves g g') (hs : g'.LiveScope s) : g.LiveScope s := by
  rcases (h.belongs s _).mp ⟨hs, rfl⟩ with ⟨hbelongs, -⟩ | ⟨x, hbelongs, -⟩
  · exact hbelongs.1
  · exact hbelongs.1

/-- The nodes of later moves neither lost nor got a scope before. -/
theorem trans (h : Moved moves g g1) (h' : Moved moves' g1 g')
    (hkeys : ∀ x ∈ moves'.map Prod.fst, x ∉ moves.map Prod.fst)
    (howners : ∀ x ∈ moves'.map Prod.fst, ∀ y, (y, some x) ∉ moves) :
    Moved (moves ++ moves') g g' := by
  refine ⟨h'.indexed, fun s n => ?_, fun s hs hupper => ?_⟩
  · rw [h'.belongs, h.belongs, map_append, mem_append, not_or]
    constructor
    · rintro (⟨⟨hs, hn⟩ | ⟨x, hs, hx⟩, hn'⟩ | ⟨x, hs, hx⟩)
      · exact .inl ⟨hs, hn, hn'⟩
      · exact .inr ⟨x, hs, mem_append_left _ hx⟩
      · have hkey : x ∈ moves'.map Prod.fst := mem_map_of_mem hx
        rcases (h.belongs s x).mp hs with ⟨hs, -⟩ | ⟨y, -, hy⟩
        · exact .inr ⟨x, hs, mem_append_right _ hx⟩
        · exact absurd hy (howners x hkey y)
    · rintro (⟨hs, hn, hn'⟩ | ⟨x, hs, hx⟩)
      · exact .inl ⟨.inl ⟨hs, hn⟩, hn'⟩
      · rcases mem_append.mp hx with hx | hx
        · exact .inl ⟨.inr ⟨x, hs, hx⟩, fun hn' => howners n hn' x hx⟩
        · refine .inr ⟨x, (h.belongs s x).mpr (.inl ⟨hs, hkeys x ?_⟩), hx⟩
          exact mem_map_of_mem hx
  · exact h.upper s (h'.live hs) (h'.upper s hs hupper)

theorem congr_left (h : Moved moves g1 g') (ht : g1.treeView = g.treeView)
    (hn : g1.nodeView = g.nodeView) : Moved moves g g' := by
  refine ⟨h.indexed, fun s n => ?_, fun s hs hupper => ?_⟩
  · rw [← belongs_congr (liveScope_congr ht) hn]
    exact h.belongs s n
  · rw [← upper_congr ht]
    exact h.upper s hs hupper

theorem congr_right (h : Moved moves g g1) (ht : g'.treeView = g1.treeView)
    (hn : g'.nodeView = g1.nodeView) : Moved moves g g' := by
  refine ⟨h.indexed.congr (liveScope_congr ht) hn, fun s n => ?_, fun s hs hupper => ?_⟩
  · rw [belongs_congr (liveScope_congr ht) hn]
    exact h.belongs s n
  · rw [liveScope_congr ht] at hs
    rw [upper_congr ht] at hupper
    exact h.upper s hs hupper

/-- A node without a scope. -/
theorem of_none (h : g.Indexed) (hx : g.acquire? x = none) (fate : Option NodeId) :
    Moved [(x, fate)] g g := by
  have hnone := h.not_belongs hx
  refine ⟨h, fun s n => ⟨fun hs => .inl ⟨hs, ?_⟩, ?_⟩, fun _ _ => id⟩
  · rw [map_singleton, mem_singleton]
    rintro rfl
    exact hnone s hs
  · rintro (⟨hs, -⟩ | ⟨y, hs, hy⟩)
    · exact hs
    · obtain ⟨rfl, -⟩ := Prod.mk.inj (mem_singleton.mp hy)
      exact absurd hs (hnone s)

/-- The only scope of a node goes to another node. -/
theorem registerNode (h : g.Indexed) (hs : ∀ t, g.Belongs t x ↔ t = s) (owner : NodeId) :
    Moved [(x, some owner)] g (g.registerNode owner s) := by
  have hlive : g.LiveScope s := ((hs s).mpr rfl).1
  refine ⟨h.registerNode hlive, fun t n => ?_, fun t _ => ?_⟩
  · rw [belongs_registerNode hlive]
    simp only [map_singleton, mem_singleton, Prod.mk.injEq, Option.some.injEq]
    constructor
    · intro hbelongs
      split at hbelongs
      · rename_i hts
        exact .inr ⟨x, (hs t).mpr hts, rfl, hbelongs⟩
      · rename_i hts
        refine .inl ⟨hbelongs, ?_⟩
        rintro rfl
        exact hts ((hs t).mp hbelongs)
    · rintro (⟨hbelongs, hn⟩ | ⟨y, hbelongs, rfl, rfl⟩)
      · rw [if_neg]
        · exact hbelongs
        · rintro rfl
          exact hn (hbelongs.2.symm.trans ((hs t).mpr rfl).2)
      · rw [if_pos ((hs t).mp hbelongs)]
  · rw [upper_congr treeView_registerNode]
    exact id

/-- The only scope of a node dissolves into the scope above it. -/
theorem dissolve {dst : ScopeId} (h : g.Indexed) (hs : ∀ t, g.Belongs t x ↔ t = s)
    (hd : Dissolved g g' s dst) : Moved [(x, none)] g g' := by
  refine ⟨h.drop hd.live hd.block hd.index, fun t n => ?_, fun t ht hupper => ?_⟩
  · simp only [map_singleton, mem_singleton, Prod.mk.injEq, reduceCtorEq, and_false, exists_false,
      or_false]
    constructor
    · intro hbelongs
      obtain ⟨hlive, hts⟩ := (hd.live t).mp hbelongs.1
      have hold : g.Belongs t n := ⟨hlive, (hd.block t hts).symm.trans hbelongs.2⟩
      refine ⟨hold, ?_⟩
      rintro rfl
      exact hts ((hs t).mp hold)
    · rintro ⟨hbelongs, hn⟩
      have hts : t ≠ s := by
        rintro rfl
        exact hn (hbelongs.2.symm.trans ((hs t).mpr rfl).2)
      exact ⟨(hd.live t).mpr ⟨hbelongs.1, hts⟩, (hd.block t hts).trans hbelongs.2⟩
  · obtain ⟨hlive, hts⟩ := (hd.live t).mp ht
    rw [hd.upper t hlive hts] at hupper
    exact Option.map_eq_none_iff.mp hupper

end Moved

end Loom.ScopeGraph
