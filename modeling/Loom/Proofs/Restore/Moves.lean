import Loom.Proofs.Restore.Reconcile
import Loom.Proofs.Scope.Block
import Loom.Proofs.Scope.Occurrence

/-!
What undoing a wrapper does to the scopes, the references and the definitions in it.

The scopes of the wrapper go to its owners or dissolve, the reference to the array of a loop goes,
and so does the definition of its placeholder. Everything else stays where it is.
-/

open List

namespace Loom

open Arena

variable {placeholder : Bool} {callback : NodeId}

open ScopeGraph

namespace Task

variable {t : Task} {a a' : Arena} {n x owner : NodeId} {targets : List NodeId} {g : ScopeGraph}
  {parts : EachParts}

/-- The nodes of a wrapper that have scopes, each with the markup node that gets its scope; the
scope of a callback without parameters goes to none. -/
def moves (t : Task) (a : Arena) (statement : NodeId) : List (NodeId × Option NodeId) :=
  match t.action with
  | .expression | .constTag => []
  | .ifBlock owner elseOwner =>
    match a.kind statement with
    | .ifStatement _ consequent alternate =>
      (consequent, some owner) ::
        match alternate, elseOwner with
        | some alternate, some elseOwner => [(alternate, some elseOwner)]
        | _, _ => []
    | _ => []
  | .eachBlock owner _ =>
    match a.eachParts? statement with
    | some parts => [(parts.callback, some owner)]
    | none => []
  | .callback owner =>
    match a.kind statement with
    | .expressionStatement e => [(e, if t.fragments.isEmpty then none else some owner)]
    | _ => []
  | .snippet owner => [(statement, some owner)]

/-- The markup nodes that a wrapper leaves its scopes to; a callback without parameters leaves its
scope to none. -/
def heirs (t : Task) : List (Option NodeId) :=
  match t.action with
  | .expression | .constTag => []
  | .ifBlock owner elseOwner => some owner :: elseOwner.toList.map some
  | .callback owner => [if t.fragments.isEmpty then none else some owner]
  | .eachBlock owner _ | .snippet owner => [some owner]

/-- The identifier of the array in a loop wrapper. -/
def array? (t : Task) (a : Arena) (statement : NodeId) : Option NodeId :=
  match t.action with
  | .eachBlock .. => (a.eachParts? statement).map EachParts.array
  | _ => none

/-- The callback of a loop wrapper with a placeholder, and the placeholder. -/
def placeholder? (t : Task) (a : Arena) (statement : NodeId) : Option (NodeId × NodeId) :=
  match t.action with
  | .eachBlock _ true => (a.eachParts? statement).bind fun parts =>
    parts.params.head?.map (parts.callback, ·)
  | _ => none

/-- The owners are those of the action. -/
theorem owners_moves (t : Task) (a : Arena) (n : NodeId) :
    ((t.moves a n).filterMap Prod.snd).Sublist t.action.owners := by
  unfold moves
  split
  · exact nil_sublist _
  · exact nil_sublist _
  · rename_i owner elseOwner haction
    rw [haction]
    split
    · refine List.Sublist.cons_cons owner ?_
      split
      · exact .refl _
      · exact nil_sublist _
    · exact nil_sublist _
  · rename_i haction
    rw [haction]
    split
    · exact .refl _
    · exact nil_sublist _
  · rename_i haction
    rw [haction]
    split
    · cases t.fragments.isEmpty
      · exact .refl _
      · exact nil_sublist _
    · exact nil_sublist _
  · rename_i haction
    rw [haction]
    exact .refl _

theorem array?_eq_some (h : t.array? a n = some x) :
    ∃ owner placeholder parts, t.action = .eachBlock owner placeholder ∧
      a.eachParts? n = some parts ∧ x = parts.array := by
  unfold array? at h
  split at h
  · rename_i owner placeholder haction
    obtain ⟨parts, hparts, rfl⟩ := Option.map_eq_some_iff.mp h
    exact ⟨owner, placeholder, parts, haction, hparts, rfl⟩
  · cases h

theorem placeholder?_eq_some (h : t.placeholder? a n = some (callback, x)) :
    ∃ owner parts rest, t.action = .eachBlock owner true ∧ a.eachParts? n = some parts ∧
      callback = parts.callback ∧ parts.params = x :: rest := by
  unfold placeholder? at h
  split at h
  · rename_i owner haction
    obtain ⟨parts, hparts, hparam⟩ := Option.bind_eq_some_iff.mp h
    obtain ⟨p, hp, heq⟩ := Option.map_eq_some_iff.mp hparam
    obtain ⟨rfl, rfl⟩ := Prod.mk.inj heq
    obtain ⟨rest, hrest⟩ := head?_eq_some_iff.mp hp
    exact ⟨owner, parts, rest, haction, hparts, rfl, hrest⟩
  · cases h

theorem moves_eachBlock (haction : t.action = .eachBlock owner placeholder)
    (hparts : a.eachParts? n = some parts) : t.moves a n = [(parts.callback, some owner)] := by
  simp only [moves, haction, hparts]

theorem mem_moves_of_placeholder (h : t.placeholder? a n = some (callback, x)) :
    callback ∈ (t.moves a n).map Prod.fst := by
  obtain ⟨owner, parts, -, haction, hparts, rfl, -⟩ := placeholder?_eq_some h
  rw [moves_eachBlock haction hparts]
  exact mem_singleton_self _

theorem below_of_placeholder (h : t.placeholder? a n = some (callback, x)) : a.Below n x := by
  obtain ⟨_, parts, rest, -, hparts, -, hparams⟩ := placeholder?_eq_some h
  have hmem : x ∈ parts.params := hparams ▸ mem_cons_self ..
  obtain ⟨c, hlists, hplain⟩ := (eachParts?_eq_some.mp hparts).within_param hmem
  exact .head hlists (below_of_plain hplain)

/-- Only the callback of a callback wrapper may lose its scope. -/
theorem placeholder?_of_dissolved (h : (x, none) ∈ t.moves a n) : t.placeholder? a n = none := by
  unfold moves at h
  unfold placeholder?
  split
  · rename_i haction
    simp only [haction] at h
    split at h <;> simp at h
  · rfl

/-- What the wrapper is made of does not depend on the statements inside it. -/
theorem Shape.parts_congr (h : t.Shape a n targets)
    (hsame : ∀ x, a.Below n x → (a.kind x).isBody = false → a'.kind x = a.kind x) :
    t.moves a' n = t.moves a n ∧ t.array? a' n = t.array? a n ∧
      t.placeholder? a' n = t.placeholder? a n := by
  have hkind : ∀ {k}, a.kind n = k → k.isBody = false → a'.kind n = k :=
    fun hk hbody => (hsame n .refl (hk ▸ hbody)).trans hk
  cases h with
  | expression haction | constTag haction | snippet haction =>
    simp [moves, array?, placeholder?, haction]
  | ifBlock haction hstmt | callback haction hstmt =>
    have hstmt' := hkind hstmt rfl
    simp [moves, array?, placeholder?, haction, hstmt, hstmt']
  | eachBlock haction hloop _ =>
    have hparts := eachParts?_eq_some.mpr hloop
    have hparts' := eachParts?_eq_some.mpr (hloop.congr hsame)
    simp [moves, array?, placeholder?, haction, hparts, hparts']

/-! Scopes. -/

theorem moved_handOver (h : g.Indexed) (hone : ∀ s s', g.Belongs s x → g.Belongs s' x → s = s')
    (owner : NodeId) : Moved [(x, some owner)] g (handOver g x owner) := by
  unfold handOver
  split
  · rename_i s hs
    have hbelongs := h.belongs_acquire hs
    exact .registerNode h (fun t => ⟨fun ht => hone t s ht hbelongs, fun ht => ht ▸ hbelongs⟩) owner
  · rename_i hnone
    exact .of_none h hnone _

/-- The scopes of a wrapper go to its owners or dissolve, when its nodes have one scope at most. -/
theorem Shape.moved_reconcile (h : t.Shape a n targets) (hsound : g.Sound) (hidx : g.Indexed)
    (hkeys : ((t.moves a n).map Prod.fst).Nodup)
    (howners : ∀ x ∈ (t.moves a n).map Prod.fst, ∀ y, (y, some x) ∉ t.moves a n)
    (hone : ∀ x ∈ (t.moves a n).map Prod.fst, ∀ s s', g.Belongs s x → g.Belongs s' x → s = s')
    (hupper : ∀ x ∈ (t.moves a n).map Prod.fst, ∀ s, g.Belongs s x → (g.scopeAt s).upper ≠ none) :
    Moved (t.moves a n) g (t.reconcile a n targets g) := by
  have hlength := h.length
  cases h with
  | expression haction | constTag haction =>
    simp only [moves, reconcile, haction]
    exact .refl hidx
  | snippet haction _ _ =>
    simp only [moves, haction] at hone
    simp only [moves, reconcile, haction]
    exact moved_handOver hidx (hone n (by simp)) _
  | @ifBlock owner test consequent elseOwner alternate haction hstmt _ =>
    simp only [moves, haction, hstmt] at hone hkeys howners ⊢
    simp only [reconcile, haction, hstmt]
    have hfirst := moved_handOver hidx (hone consequent (by simp)) owner
    cases alternate with
    | none => exact hfirst
    | some alternate =>
      cases elseOwner with
      | none => exact hfirst
      | some elseOwner =>
        have hne : alternate ≠ consequent := by
          rintro rfl
          simp at hkeys
        have hother : alternate ≠ owner := by
          rintro rfl
          exact howners alternate (by simp) consequent (by simp)
        -- The second branch still has its scope.
        have hsame : ∀ s, (handOver g consequent owner).Belongs s alternate ↔ g.Belongs s alternate := by
          intro s
          rw [hfirst.belongs]
          simp [hne, hother]
        refine hfirst.trans (moved_handOver hfirst.indexed (fun s s' hs hs' => ?_) elseOwner) ?_ ?_
        · exact hone alternate (by simp) s s' ((hsame s).mp hs) ((hsame s').mp hs')
        · simpa using hne
        · simpa using hother
  | @eachBlock owner placeholder parts _ haction hloop _ =>
    have hparts := eachParts?_eq_some.mpr hloop
    rw [moves_eachBlock haction hparts] at hone ⊢
    simp only [reconcile, haction, hparts]
    refine Moved.congr_right ?_ (view_removeReference treeView) (view_removeReference nodeView)
    split
    · rename_i s hs
      have hbelongs := hidx.belongs_acquire hs
      have htree := view_dropPlaceholder (a := a) (g := g) treeView parts placeholder s
      have hnode := view_dropPlaceholder (a := a) (g := g) nodeView parts placeholder s
      have hlive := liveScope_congr htree
      refine Moved.congr_left (Moved.registerNode (hidx.congr hlive hnode) (fun t => ?_) owner) htree hnode
      rw [belongs_congr hlive hnode]
      exact ⟨fun ht => hone parts.callback (by simp) t s ht hbelongs, fun ht => ht ▸ hbelongs⟩
    · rename_i hnone
      exact .of_none hidx hnone _
  | @callback owner e _ _ _ _ haction hstmt _ _ =>
    have hempty : targets.isEmpty = t.fragments.isEmpty := by
      rw [Bool.eq_iff_iff, isEmpty_iff_length_eq_zero, isEmpty_iff_length_eq_zero, hlength]
    simp only [moves, haction, hstmt] at hone hupper ⊢
    simp only [reconcile, haction, hstmt, hempty]
    cases hs : g.acquire? e with
    | none => exact .of_none hidx hs _
    | some s =>
      have hbelongs := hidx.belongs_acquire hs
      have honly : ∀ t, g.Belongs t e ↔ t = s :=
        fun t => ⟨fun ht => hone e (by simp) t s ht hbelongs, fun ht => ht ▸ hbelongs⟩
      cases t.fragments.isEmpty with
      | true =>
        obtain ⟨dst, hup⟩ := Option.ne_none_iff_exists'.mp (hupper e (by simp) s hbelongs)
        exact .dissolve hidx honly (hsound.wellFormed.dissolved_replaceScope hbelongs.1 hup (.refl _))
      | false => exact .registerNode hidx honly owner

/-! References. -/

theorem fewerMentions_handOver : FewerMentions g (handOver g x owner) := by
  unfold handOver
  split
  · exact .registerNode ..
  · exact .refl g

theorem fewerMentions_dropPlaceholder (placeholder : Bool) (s : ScopeId) :
    FewerMentions g (dropPlaceholder a parts placeholder g s) := by
  unfold dropPlaceholder
  split
  · split
    · exact .removeVariable ..
    · exact .refl g
  · exact .refl g

/-- The scopes of a loop before the reference to its array goes. -/
def settleLoop (a : Arena) (parts : EachParts) (owner : NodeId) (placeholder : Bool)
    (g : ScopeGraph) : ScopeGraph :=
  match g.acquire? parts.callback with
  | some s => (dropPlaceholder a parts placeholder g s).registerNode owner s
  | none => g

theorem reconcile_eachBlock (haction : t.action = .eachBlock owner placeholder)
    (hparts : a.eachParts? n = some parts) : t.reconcile a n targets g =
      ((settleLoop a parts owner placeholder g).removeReference parts.array (g.innermostScope a n)).2 := by
  simp only [reconcile, haction, hparts]
  rfl

theorem fewerMentions_settleLoop (a : Arena) (parts : EachParts) (owner : NodeId)
    (placeholder : Bool)
    (g : ScopeGraph) : FewerMentions g (settleLoop a parts owner placeholder g) := by
  unfold settleLoop
  split
  · exact (fewerMentions_dropPlaceholder ..).trans (.registerNode ..)
  · exact .refl g

/-- No reference is added. -/
theorem Shape.fewerMentions_reconcile (h : t.Shape a n targets) :
    FewerMentions g (t.reconcile a n targets g) := by
  cases h with
  | expression haction _ _ | constTag haction _ _ =>
    simp only [reconcile, haction]
    exact .refl g
  | snippet haction _ _ =>
    simp only [reconcile, haction]
    exact fewerMentions_handOver
  | @ifBlock owner test consequent elseOwner alternate haction hstmt _ =>
    simp only [reconcile, haction, hstmt]
    split
    · exact fewerMentions_handOver.trans fewerMentions_handOver
    · exact fewerMentions_handOver
  | eachBlock haction hloop _ =>
    rw [reconcile_eachBlock haction (eachParts?_eq_some.mpr hloop)]
    exact (fewerMentions_settleLoop ..).trans (.removeReference ..)
  | callback haction hstmt _ _ =>
    simp only [reconcile, haction, hstmt]
    split
    · split
      · exact .replaceScope ..
      · exact .registerNode ..
    · exact .refl g

theorem sound_settleLoop (h : g.Sound) (a : Arena) (parts : EachParts) (owner : NodeId)
    (placeholder : Bool) : (settleLoop a parts owner placeholder g).Sound ∧
      (settleLoop a parts owner placeholder g).treeView = g.treeView := by
  have hrun : ScopeStep.run a (loopEdits g parts owner placeholder) g =
      settleLoop a parts owner placeholder g := by
    unfold loopEdits settleLoop
    cases g.acquire? parts.callback with
    | none => rfl
    | some s =>
      rw [ScopeStep.run_append, run_placeholderEdits]
      rfl
  rw [← hrun]
  obtain ⟨hadm, htree⟩ := loopEdits_admissible h.filed parts owner placeholder
  exact ⟨h.run hadm, htree⟩

/-- The array of a loop has no reference any more, if it had just one. -/
theorem not_mentioned_reconcile (hsound : g.Sound) (hfiled : g.MentionsFiled)
    (harray : t.array? a n = some x) {r : ReferenceId} (hone : g.identifierReferences.get x = [r]) :
    ¬ (t.reconcile a n targets g).Mentioned x := by
  obtain ⟨owner, placeholder, parts, haction, hparts, rfl⟩ := array?_eq_some harray
  rw [reconcile_eachBlock haction hparts]
  obtain ⟨hsound', htree⟩ := sound_settleLoop hsound a parts owner placeholder
  have hfewer := fewerMentions_settleLoop a parts owner placeholder g
  refine hsound'.wellFormed.not_mentioned_removeReference ?_ (hfewer.filed hfiled)
    (hfewer.index ▸ hone)
  rw [liveScope_congr htree]
  exact hsound.liveScope_innermost a n

/-! Definitions. -/

variable {s : ScopeId} {name : String}

theorem definedAt_handOver (h : (handOver g n owner).DefinedAt s name x) :
    g.DefinedAt s name x := by
  unfold handOver at h
  split at h
  · exact definedAt_registerNode.mp h
  · exact h

theorem definedAt_settleLoop (h : (settleLoop a parts owner placeholder g).DefinedAt s name x) :
    g.DefinedAt s name x := by
  unfold settleLoop dropPlaceholder at h
  split at h
  · rw [definedAt_registerNode] at h
    split at h
    · split at h
      · exact definedAt_removeVariable h
      · exact h
    · exact h
  · exact h

/-- Definitions are not added. Those of a dissolved scope move with its variables. -/
theorem Shape.definedAt_reconcile (h : t.Shape a n targets) (hsound : g.Sound)
    (hidx : g.Indexed) (hdef : (t.reconcile a n targets g).DefinedAt s name x) :
    g.DefinedAt s name x ∨ ∃ src e, g.Belongs src e ∧ (e, none) ∈ t.moves a n ∧
      g.DefinedAt src name x := by
  have hlength := h.length
  cases h with
  | expression haction _ _ | constTag haction _ _ =>
    simp only [reconcile, haction] at hdef
    exact .inl hdef
  | snippet haction _ _ =>
    simp only [reconcile, haction] at hdef
    exact .inl (definedAt_handOver hdef)
  | @ifBlock owner test consequent elseOwner alternate haction hstmt _ =>
    simp only [reconcile, haction, hstmt] at hdef
    split at hdef
    · exact .inl (definedAt_handOver (definedAt_handOver hdef))
    · exact .inl (definedAt_handOver hdef)
  | eachBlock haction hloop _ =>
    rw [reconcile_eachBlock haction (eachParts?_eq_some.mpr hloop)] at hdef
    exact .inl (definedAt_settleLoop (definedAt_removeReference hdef))
  | @callback owner e _ _ _ _ haction hstmt _ _ =>
    simp only [reconcile, haction, hstmt] at hdef
    split at hdef
    · rename_i src hsrc
      have hbelongs := hidx.belongs_acquire hsrc
      split at hdef
      · rename_i hempty
        cases hup : (g.scopeAt src).upper with
        | none =>
          refine .inl ?_
          rwa [ScopeGraph.replaceScope_root hup] at hdef
        | some dst =>
          rcases hsound.wellFormed.definedAt_replaceScope hbelongs.1 hup hdef with hsame | ⟨-, hsource⟩
          · exact .inl hsame
          · refine .inr ⟨src, e, hbelongs, ?_, hsource⟩
            have hfrags : t.fragments.isEmpty = true := by
              rw [isEmpty_iff_length_eq_zero, ← hlength, ← isEmpty_iff_length_eq_zero]
              exact hempty
            simp [moves, haction, hstmt, hfrags]
      · exact .inl (definedAt_registerNode.mp hdef)
    · exact .inl hdef

/-- The placeholder of a loop is not defined in the scope of its callback any more. -/
theorem not_definedAt_reconcile (hsound : g.Sound) (hidx : g.Indexed)
    (hhole : t.placeholder? a n = some (callback, x)) (hx : a.kind x = .identifier name)
    (hsize : 0 < a.size) (hone : ∀ s s', g.Belongs s callback → g.Belongs s' callback → s = s')
    (hs : g.Belongs s callback) : ¬ (t.reconcile a n targets g).DefinedAt s name x := by
  obtain ⟨owner, parts, rest, haction, hparts, rfl, hparams⟩ := placeholder?_eq_some hhole
  rw [reconcile_eachBlock haction hparts]
  intro hdef
  have hdef := definedAt_removeReference hdef
  have hacquire : g.acquire? parts.callback = some s := by
    cases hsome : g.acquire? parts.callback with
    | none => exact absurd hs (hidx.not_belongs hsome s)
    | some s' => rw [hone s s' hs (hidx.belongs_acquire hsome)]
  have hpattern : patternIdentifiers a x = [x] := by
    obtain ⟨fuel, hfuel⟩ := Nat.exists_eq_succ_of_ne_zero (Nat.pos_iff_ne_zero.mp hsize)
    rw [patternIdentifiers, hfuel, patternIdentifiersWithin, hx]
  simp only [settleLoop, hacquire, dropPlaceholder, if_true, hparams] at hdef
  rw [definedAt_registerNode, removeVariable, hpattern] at hdef
  exact hsound.wellFormed.not_definedAt_removeBinding hx hdef

end Task

end Loom
