import Loom.Proofs.Tree.Host
import Loom.TypeAware
import Mathlib.Order.Basic

/-!
Undoing the changes that the type-aware pass made to the scripts.

A statement of the right shape tells which process made it: a reactive declaration by its place, the
declaration of a store by its argument. So no two processes fit a statement when their places and
names are distinct, and the order in which they are registered does not matter. A process changes
nothing but the program and what is below its statement.
-/

open List

namespace Loom

open Arena Kind

variable {id callee labeled : NodeId} {arguments : List NodeId} {a' : Arena}

theorem Arena.node_removeChild_ne {a : Arena} {parent child i : NodeId} (hp : i ≠ parent)
    (hc : i ≠ child) : (a.removeChild parent child).2.node i = a.node i := by
  unfold removeChild
  dsimp only
  split
  · rw [setParent, node_modify, if_neg fun h => hc h.1, setKind, node_modify,
      if_neg fun h => hp h.1]
  · rfl

namespace TypeAware

/-- What tells the processes apart: the start of a reactive statement, the name of a store. -/
def Process.key : Process → Nat ⊕ String
  | .reactive site => .inl site.statement.start
  | .storeStandIn name => .inr name

/-- The processes undo statements one after the other: `log` says which process undid which
statement. A statement that no process fits is passed over, and a process is used once. -/
inductive Undoes (coords : Coordinates) (program : NodeId) (top : ScopeId)
    (firstTokens : List Token) :
    List NodeId → List Process → State → List (NodeId × Process) → State → Prop
  | nil {ps s} : Undoes coords program top firstTokens [] ps s [] s
  | skip {statement rest ps s log s'} (hnone : ∀ p ∈ ps, p.isMatch s.arena statement = false)
    (hrest : Undoes coords program top firstTokens rest ps s log s') :
    Undoes coords program top firstTokens (statement :: rest) ps s log s'
  | undo {statement rest ps p s s1 log s'} (hp : p ∈ ps)
    (hmatch : p.isMatch s.arena statement = true)
    (hundo : p.undo coords program top firstTokens statement s = .ok s1)
    (hrest : Undoes coords program top firstTokens rest (ps.erase p) s1 log s') :
    Undoes coords program top firstTokens (statement :: rest) ps s ((statement, p) :: log) s'

variable {a : Arena} {program statement x : NodeId} {p q : Process} {ps ps' : List Process}
  {s : State}
  {site : ReactiveSite} {shape : ReactiveShape} {coords : Coordinates} {top : ScopeId}
    {firstTokens : List Token}
  {rest : List NodeId}

/-! Shapes. -/

theorem singleLetCall?_eq_some (h : singleLetCall? a statement = some (id, callee, arguments)) :
    ∃ declarator init optional,
      a.kind statement = .variableDeclaration .let [declarator] ∧
      a.kind declarator = .variableDeclarator id (some init) ∧
      a.kind init = .callExpression callee arguments optional := by
  unfold singleLetCall? at h
  split at h
  · split at h
    · split at h
      · cases h
        exact ⟨_, _, _, ‹_›, ‹_›, ‹_›⟩
      · cases h
    · cases h
  · cases h

theorem reactiveShape?_eq_some (h : reactiveShape? site a statement = some shape) :
    (a.range statement).start = site.statement.start ∧
      singleLetCall? a statement = some (shape.identifier, shape.callee, [shape.arrow]) ∧
      a.identifierName? shape.callee = some reactiveHelper ∧
      ∃ isAsync, a.kind shape.arrow = .arrowFunction [] shape.expression true isAsync := by
  simp only [reactiveShape?, ne_eq, ite_not, Option.bind_eq_bind] at h
  split at h
  · rename_i hstart
    obtain ⟨⟨identifier, callee, arguments⟩, hcall, h⟩ := Option.bind_eq_some_iff.mp h
    dsimp only at h
    split at h
    · cases h
    · rename_i hnames
      simp only [Bool.or_eq_true, decide_eq_true_eq, not_or, not_not] at hnames
      split at h
      · split at h
        · cases h
          exact ⟨hstart, hcall, hnames.2, _, ‹_›⟩
        · cases h
      · cases h
  · cases h

theorem isStoreShape_eq_true {name : String} (h : isStoreShape name a statement = true) :
    ∃ id callee argument, singleLetCall? a statement = some (id, callee, [argument]) ∧
      a.identifierName? callee = some storeHelper ∧ a.identifierName? argument = some name := by
  unfold isStoreShape at h
  split at h
  · simp_all
  · cases h

/-- The key of a process, as the declaration that it made shows it. -/
def shownKey? (a : Arena) (statement : NodeId) : Option (Nat ⊕ String) := do
  let (_, callee, arguments) ← singleLetCall? a statement
  if a.identifierName? callee = some reactiveHelper then some (.inl (a.range statement).start)
  else (arguments.head?.bind a.identifierName?).map .inr

theorem Process.shownKey?_of_isMatch (h : p.isMatch a statement = true) :
    shownKey? a statement = some p.key := by
  cases p with
  | reactive site =>
    obtain ⟨shape, hshape⟩ := Option.isSome_iff_exists.mp h
    obtain ⟨hstart, hcall, hcallee, -⟩ := reactiveShape?_eq_some hshape
    simp [shownKey?, hcall, hcallee, hstart, key]
  | storeStandIn name =>
    obtain ⟨_, _, _, hcall, hcallee, hargument⟩ := isStoreShape_eq_true h
    have hhelpers : storeHelper ≠ reactiveHelper := by decide
    simp [shownKey?, hcall, hcallee, hargument, hhelpers, key]

theorem Process.eq_of_isMatch (hkeys : (ps.map Process.key).Nodup) (hp : p ∈ ps) (hq : q ∈ ps)
    (hmatch : p.isMatch a statement = true) (hmatch' : q.isMatch a statement = true) : p = q :=
  inj_on_of_nodup_map hkeys hp hq
    (Option.some.inj ((shownKey?_of_isMatch hmatch).symm.trans (shownKey?_of_isMatch hmatch')))

/-! Logs. -/

namespace Undoes

variable {log : List (NodeId × Process)} {s' : State}

section

variable (h : Undoes coords program top firstTokens rest ps s log s')

include h

theorem sublist : (log.map Prod.fst).Sublist rest := by
  induction h with
  | nil => exact .slnil
  | skip _ _ ih => exact ih.cons _
  | undo _ _ _ _ ih => exact ih.cons_cons _

theorem subperm : (log.map Prod.snd).Subperm ps := by
  induction h with
  | nil => exact nil_subperm
  | skip _ _ ih => exact ih
  | undo hp _ _ _ ih => exact ((subperm_cons _).mpr ih).trans (perm_cons_erase hp).symm.subperm

theorem perm (hperm : ps'.Perm ps) : Undoes coords program top firstTokens rest ps' s log s' := by
  induction h generalizing ps' with
  | nil => exact .nil
  | skip hnone _ ih => exact .skip (fun p hp => hnone p (hperm.subset hp)) (ih hperm)
  | undo hp hmatch hundo _ ih => exact .undo (hperm.symm.subset hp) hmatch hundo (ih (hperm.erase _))

/-- The loop makes no other choice, for no two processes fit a statement. -/
theorem undoAll_eq (hkeys : (ps.map Process.key).Nodup) :
    undoAll coords program top firstTokens rest ps s = .ok (log.map (·.2.name), s') := by
  induction h with
  | nil => rfl
  | skip hnone _ ih =>
    rw [undoAll, findIdx?_eq_none_iff.mpr hnone]
    exact ih hkeys
  | undo hp hmatch hundo _ ih =>
    rw [undoAll]
    split
    · rename_i hnone
      rw [findIdx?_eq_none_iff.mp hnone _ hp] at hmatch
      cases hmatch
    · rename_i i hfind
      obtain ⟨hi, hmatch', -⟩ := findIdx?_eq_some_iff_getElem.mp hfind
      obtain rfl := Process.eq_of_isMatch hkeys (getElem_mem hi) hp hmatch' hmatch
      have hrest := ih (hkeys.sublist (erase_sublist.map _))
      rw [hkeys.of_map.erase_getElem i hi] at hrest
      simp [getElem?_eq_getElem hi, hundo, hrest, bind, Except.bind, pure, Except.pure]

end

end Undoes

/-! Steps on a tree. -/

theorem below_singleLetCall (h : singleLetCall? a statement = some (id, callee, arguments)) :
    ∀ c ∈ id :: callee :: arguments, a.Below statement c := by
  have hlists : ∀ {y c : NodeId} {k : Kind}, a.kind y = k → c ∈ k.slotIds →
      a.Lists y c := fun heq hc =>
    mem_children.mpr (childIds_eq _ ▸ heq ▸ hc)
  obtain ⟨declarator, init, optional, hstmt, hdeclarator, hinit⟩ := singleLetCall?_eq_some h
  have hfirst : a.Below statement declarator := .single (hlists hstmt (.head _))
  have hcall := hfirst.tail (hlists hdeclarator (.tail _ (.head _)))
  rw [forall_mem_cons]
  refine ⟨hfirst.tail (hlists hdeclarator (.head _)), fun c hc => hcall.tail (hlists hinit ?_)⟩
  simpa [slotIds, slots, Slot.nodeIds] using hc

theorem below_reactiveShape (h : reactiveShape? site a statement = some shape) :
    a.Below statement shape.identifier ∧ a.Below statement shape.expression := by
  obtain ⟨-, hcall, -, isAsync, harrow⟩ := reactiveShape?_eq_some h
  refine ⟨below_singleLetCall hcall _ (.head _),
    .tail (below_singleLetCall hcall shape.arrow (by simp)) (mem_children.mpr ?_)⟩
  rw [harrow]
  exact .head _

/-- Building a reactive statement changes the nodes that it takes over, and no others. -/
theorem rebuildReactive_spec (h : rebuildReactive coords site shape a = (labeled, a')) :
    a.size ≤ labeled ∧ a.size ≤ a'.size ∧
      ∀ x < a.size, x ≠ shape.identifier → x ≠ shape.expression → a'.node x = a.node x := by
  have hfst : ∀ (b : Arena) k r, (b.allocAt k r coords).1 = b.size := fun _ _ _ => rfl
  unfold rebuildReactive at h
  rw [Prod.ext_iff] at h
  obtain ⟨rfl, rfl⟩ := h
  refine ⟨?_, ?_, fun x hx hident hexpr => ?_⟩
  · simp [hfst, size_allocAt, Nat.add_assoc]
  · simp [size_allocAt, Nat.add_assoc]
  · have hlt : ∀ n, x < a.size + n := fun n => Nat.lt_add_right n hx
    have hnew : ∀ n, x ≠ a.size + n := fun n => Nat.ne_of_lt (hlt n)
    rw [node_allocAt, node_allocAt, node_allocAt, setRange, node_modify,
      node_allocAt hx]
    all_goals simp only [childIds_eq, hfst, size_allocAt, size_setRange, Nat.add_assoc, hlt]
    all_goals simp [slotIds, slots, Slot.nodeIds, hident, hexpr, hnew,
      Nat.ne_of_lt hx]

theorem undoReactive_ok (top : ScopeId) (firstTokens : List Token)
    (hshape : reactiveShape? site s.arena statement = some shape)
    (hbuilt : rebuildReactive coords site shape s.arena = (labeled, a'))
    (hslot : (a'.kind program).slotIds.contains statement = true) : ∃ g tokens,
    undoReactive coords program top firstTokens site statement s =
        .ok ⟨((a'.setKind program ((a'.kind program).mapSlots (.replace statement labeled))).setParent statement
          none).setParent labeled (some program), g, tokens⟩ := by
  unfold undoReactive replaceChild
  simp only [hshape, hbuilt, hslot, if_true]
  exact ⟨_, _, rfl⟩

/-- A process that fits a statement of the program undoes it. -/
theorem Process.undo_ok (coords : Coordinates) (top : ScopeId) (firstTokens : List Token)
    (hmatch : p.isMatch s.arena statement = true) (hlists : s.arena.Lists program statement)
    (hparent : s.arena.parent statement = some program) (hlt : program < s.arena.size)
    (hout : ¬ s.arena.Below statement program) : ∃ s',
    p.undo coords program top firstTokens statement s = .ok s' ∧ s.arena.size ≤ s'.arena.size ∧
    (∀ c, s.arena.Lists program c → c ≠ statement → s'.arena.Lists program c) ∧
    ∀ x < s.arena.size, x ≠ program → ¬ s.arena.Below statement x →
      s'.arena.node x = s.arena.node x := by
  simp only [Arena.Lists, mem_children] at hlists ⊢
  cases p with
  | reactive site =>
    obtain ⟨shape, hshape⟩ := Option.isSome_iff_exists.mp hmatch
    obtain ⟨hident, hexpr⟩ := below_reactiveShape hshape
    obtain ⟨⟨labeled, a'⟩, hbuilt⟩ : ∃ b, rebuildReactive coords site shape s.arena = b := ⟨_, rfl⟩
    obtain ⟨hlabeled, hsize, hbuild⟩ := rebuildReactive_spec hbuilt
    have hnode : ∀ x < s.arena.size, ¬ s.arena.Below statement x →
        a'.node x = s.arena.node x := fun x hx hbelow =>
      hbuild x hx (fun h => hbelow (h ▸ hident)) fun h => hbelow (h ▸ hexpr)
    have hkind : a'.kind program = s.arena.kind program :=
      congrArg Node.kind (hnode program hlt hout)
    obtain ⟨g, tokens, hok⟩ := undoReactive_ok top firstTokens hshape hbuilt (by
      rw [hkind, ← childIds_eq]
      simpa using hlists)
    refine ⟨_, hok, by simpa using hsize, fun c hc hne => ?_, fun x hx hxprogram hbelow => ?_⟩
    · rw [kind_setParent, kind_setParent, kind_setKind, if_pos ⟨rfl, Nat.lt_of_lt_of_le hlt hsize⟩,
        hkind]
      rw [childIds_replace]
      exact mem_map.mpr ⟨_, hc, if_neg hne⟩
    · have hxlabeled : x ≠ labeled := Nat.ne_of_lt (Nat.lt_of_lt_of_le hx hlabeled)
      have hxstatement : x ≠ statement := fun h => hbelow (h ▸ .refl)
      simp [setParent, setKind, node_modify, hxlabeled, hxstatement, hxprogram, hnode x hx hbelow]
  | storeStandIn name =>
    refine ⟨_, rfl, Nat.le_of_eq (Arena.Relinked.detach _).size.symm, fun c hc hne => ?_,
      fun x _ hx hbelow => ?_⟩
    · show c ∈ ((s.arena.detach statement).2.kind program).childIds
      rw [kind_detach hparent hlt, if_pos rfl, mem_childIds_drop_ne hne]
      exact hc
    · show (s.arena.detach statement).2.node x = _
      rw [detach, hparent]
      exact node_removeChild_ne hx fun h => hbelow (h ▸ .refl)

/-! Runs. -/

/-- Nothing changed but the program and what is below the statements `gone`. -/
structure Spares (program : NodeId) (gone : List NodeId) (a a' : Arena) : Prop where
  size : a.size ≤ a'.size
  lists : ∀ c, a.Lists program c → c ∉ gone → a'.Lists program c
  node : ∀ x < a.size, x ≠ program → (∀ c ∈ gone, ¬ a.Below c x) → a'.node x = a.node x

/-- The other statements of a tree are as they were. -/
theorem Spares.node_below {gone : List NodeId} {c : NodeId} (hs : Spares program gone a a')
    (ht : a.Rooted program)
    (hgone : ∀ d ∈ gone, a.Lists program d) (hc : a.Lists program c) (hout : c ∉ gone)
    (hx : a.Below c x) : a'.node x = a.node x := by
  refine hs.node x (ht.bounded x (.head hc hx)) ?_ fun d hd hx' => hout ?_
  · rintro rfl
    exact ht.not_below_parent .refl hc hx
  · exact ht.eq_of_below_siblings .refl hc (hgone d hd) hx hx' ▸ hd

/-- On a tree the processes that fit statements undo them. -/
theorem exists_undoes (coords : Coordinates) (top : ScopeId) (firstTokens : List Token)
    (ps : List Process) (gone rest : List NodeId) (ht : a.Rooted program)
    (hlists : ∀ c ∈ gone ++ rest, a.Lists program c)
    (hnodup : (gone ++ rest).Nodup) (hs : Spares program gone a s.arena) :
    ∃ log s', Undoes coords program top firstTokens rest ps s log s' ∧
      Spares program (gone ++ log.map Prod.fst) a s'.arena := by
  induction rest generalizing ps s gone with
  | nil => exact ⟨[], s, .nil, by simpa using hs⟩
  | cons statement rest ih =>
    by_cases hmatch : ∃ p ∈ ps, p.isMatch s.arena statement = true
    · obtain ⟨p, hp, hmatch⟩ := hmatch
      have hnotMem : statement ∉ gone := fun h => (nodup_append.mp hnodup).2.2 _ h _ mem_cons_self rfl
      have hlisted : a.Lists program statement := hlists statement (by simp)
      have hsame : ∀ x, a.Below statement x → s.arena.node x = a.node x := fun x =>
        hs.node_below ht (fun d hd => hlists d (mem_append_left _ hd)) hlisted hnotMem
      have hbelow : ∀ x, s.arena.Below statement x → a.Below statement x := fun x =>
        below_of_lists fun z c hz hc => by
          have hkind : s.arena.kind z = a.kind z := congrArg Node.kind (hsame z hz)
          rwa [lists_congr hkind] at hc
      have hparent : s.arena.parent statement = some program :=
        (congrArg Node.parent (hsame statement .refl)).trans (ht.parent _ _ .refl hlisted)
      obtain ⟨s1, hundo, hsize, hlists1, hnode⟩ := p.undo_ok coords top firstTokens hmatch
        (hs.lists _ hlisted hnotMem) hparent (Nat.lt_of_lt_of_le (ht.bounded _ .refl) hs.size) fun h =>
          ht.not_below_parent .refl hlisted (hbelow _ h)
      have hs1 : Spares program (gone ++ [statement]) a s1.arena := by
        refine ⟨Nat.le_trans hs.size hsize, fun c hc hout => ?_, fun x hx hne hout => ?_⟩
        · rw [mem_append, mem_singleton, not_or] at hout
          exact hlists1 c (hs.lists c hc hout.1) hout.2
        · rw [forall_mem_append, forall_mem_singleton] at hout
          rw [hnode x (Nat.lt_of_lt_of_le hx hs.size) hne fun h => hout.2 (hbelow x h), hs.node x hx hne hout.1]
      rw [append_cons] at hlists hnodup
      obtain ⟨log, s', hrest, hs'⟩ := ih _ _ hlists hnodup hs1
      exact ⟨_, s', .undo hp hmatch hundo hrest, by rwa [map_cons, append_cons]⟩
    · have hsub : (gone ++ rest).Sublist (gone ++ statement :: rest) := (sublist_cons_self ..).append_left _
      obtain ⟨log, s', hrest, hs'⟩ := ih _ gone (fun c hc => hlists c (hsub.subset hc)) (hnodup.sublist hsub) hs
      exact ⟨log, s', .skip (fun p hp => Bool.eq_false_iff.mpr fun h => hmatch ⟨p, hp, h⟩) hrest, hs'⟩

/-- Processes with distinct places and names undo the same statements in every order of
registration, each at most once, and leave the other statements as they are. -/
theorem undoAll_of_perm (coords : Coordinates) (top : ScopeId) (firstTokens : List Token)
    (ht : s.arena.Rooted program) (hkeys : (ps.map Process.key).Nodup) :
    (∀ a statement, ∀ p ∈ ps, ∀ q ∈ ps, p.isMatch a statement = true →
      q.isMatch a statement = true → p = q) ∧
    ∃ log s', (∀ ps', ps'.Perm ps →
        Undoes coords program top firstTokens (s.arena.children program) ps' s log s' ∧
        undoAll coords program top firstTokens (s.arena.children program) ps' s = .ok (log.map (·.2.name), s')) ∧
      (log.map Prod.fst).Sublist (s.arena.children program) ∧ (log.map Prod.snd).Subperm ps ∧
      ∀ statement ∈ s.arena.children program, statement ∉ log.map Prod.fst → s'.arena.Lists program statement ∧
        ∀ x, s.arena.Below statement x → s'.arena.node x = s.arena.node x := by
  refine ⟨fun a statement p hp q hq => Process.eq_of_isMatch hkeys hp hq, ?_⟩
  obtain ⟨log, s', hundoes, hspares⟩ :=
    exists_undoes coords top firstTokens ps [] (s.arena.children program) ht
    (fun c hc => hc) (ht.nodup _ .refl) ⟨Nat.le_refl _, fun c hc _ => hc, fun _ _ _ _ => rfl⟩
  refine ⟨log, s', fun ps' hperm => ?_, hundoes.sublist, hundoes.subperm,
    fun statement hlists hout => ⟨hspares.lists _ hlists hout, fun x => hspares.node_below ht
      (fun d hd => hundoes.sublist.subset hd) hlists hout⟩⟩
  have hundoes' := hundoes.perm hperm
  exact ⟨hundoes', hundoes'.undoAll_eq ((hperm.map _).nodup_iff.mpr hkeys)⟩

/-- The script `let x = __reactive(() => (y)); let $s = __store_value(s); z`. -/
def loweredScript : Arena :=
  [.identifier "x", .identifier "__reactive", .identifier "y", .arrowFunction [] 2 true false,
    .callExpression 1 [3] false, .variableDeclarator 0 (some 4), .variableDeclaration .let [5],
    .identifier "$s",
    .identifier "__store_value", .identifier "s", .callExpression 8 [9] false,
    .variableDeclarator 7 (some 10),
    .variableDeclaration .let [11], .identifier "z", .expressionStatement 13,
    .program .module [6, 12, 14]].foldl
      (fun a k => (a.alloc k default).2) .empty

theorem undoAll_of_perm_lowered :
    let reactive : Process := .reactive { (default : ReactiveSite) with name := "x" }
    let undo := fun ps => undoAll (.ofText []) 15 0 [] [6, 12, 14] ps ⟨loweredScript, .empty, []⟩
    ∃ s', undo [reactive, .storeStandIn "s"] = .ok (["reactive", "store-stand-in"], s') ∧
      undo [.storeStandIn "s", reactive] = .ok (["reactive", "store-stand-in"], s') := by
  intro reactive undo
  have ht : HostTree .empty loweredScript 15 :=
    .of_nodes (List.range 16) (by decide +kernel) nofun rfl (by decide +kernel)
  have hkeys : ([reactive, .storeStandIn "s"].map Process.key).Nodup := by decide +kernel
  obtain ⟨-, log, s', hperm, -⟩ :=
    undoAll_of_perm (s := ⟨loweredScript, .empty, []⟩) (.ofText []) 0 [] ht.toRooted hkeys
  have hnames : (undo [reactive, .storeStandIn "s"]).toOption.map Prod.fst =
      some ["reactive", "store-stand-in"] := by
    decide +kernel
  have hfirst := (hperm _ (.refl _)).2
  have hsecond := (hperm _ (.swap ..)).2
  rw [show undo _ = _ from hfirst] at hnames
  have hlog : log.map (·.2.name) = ["reactive", "store-stand-in"] := Option.some.inj hnames
  rw [hlog] at hfirst hsecond
  exact ⟨s', hfirst, hsecond⟩

end TypeAware

end Loom
