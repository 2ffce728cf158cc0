import Loom.Proofs.Scope.Flow

/-!
Building keeps a scope graph well-formed: new scopes, declarations and references, and the look-up
of a reference.
-/

namespace Loom.ScopeGraph

open WellFormedBut

variable {s : ScopeId} {g : ScopeGraph} {settled open_ : ReferenceId → Prop}

/-- More references may be left open, and those may be settled at will. -/
theorem WellFormedBut.weaken {settled' open' : ReferenceId → Prop}
    (h : g.WellFormedBut settled open_)
    (hopen : ∀ {r}, g.LiveReference r → ¬ open' r → ¬ open_ r ∧ (settled r ↔ settled' r)) :
    g.WellFormedBut settled' open' :=
  { h with
    flow := by
      intro r hr hnot
      obtain ⟨hclosed, hiff⟩ := hopen hr hnot
      exact (h.flow hr hclosed).congr rfl rfl rfl rfl (fun _ => Iff.rfl) hiff }

/-- A graph whose five views are those of a well-formed graph is well-formed. -/
theorem WellFormedBut.congr {g' : ScopeGraph} (ht : g'.treeView = g.treeView)
    (hd : g'.declView = g.declView) (hp : g'.placeView = g.placeView)
    (hb : g'.bindingView = g.bindingView) (hth : g'.throughView = g.throughView)
    (h : g.WellFormedBut settled open_) : g'.WellFormedBut settled open_ :=
  h.of_views ht hd hp (h.bindings.congr hd hp hb) (h.through.congr ht hp hth)
    (fun r _ => resolved_congr hb r) fun _ _ _ => by rw [through_congr hth]

/-- A reference that is not settled is free. -/
theorem WellFormedBut.free_of_not_settled {r : ReferenceId} (h : g.WellFormedBut settled open_)
    (hr : g.LiveReference r)
    (hopen : ¬ open_ r) (hset : ¬ settled r) : (g.referenceAt r).resolved = none := by
  cases hres : (g.referenceAt r).resolved with
  | none => rfl
  | some v =>
    have howner : g.owner? r = some (g.variableAt v).scope := by
      rw [owner?, hres, Option.map_some]
    exact absurd ((h.flow hr hopen).settled_of_bound howner) hset

/-- The first look-up of a reference settles it. -/
theorem WellFormed.resolve {r : ReferenceId} (h : g.WellFormed settled) (hr : g.LiveReference r)
    (hset : ¬ settled r) : (g.resolve r).2.WellFormed fun q => settled q ∨ q = r := by
  have hopen : g.WellFormedBut (fun q => settled q ∨ q = r) (fun q => False ∨ q = r) := by
    refine weaken h fun {q} _ hq => ⟨id, ?_⟩
    have hne : q ≠ r := fun he => hq (.inr he)
    simp [hne]
  have hfree := free_of_not_settled h hr id hset
  refine hopen.resolveAlong _ hr hfree (.inr rfl) .refl fun {s} hs => ?_
  rw [(flow h hr id).mem_through hs]
  constructor
  · rintro ⟨hq, -⟩
    exact absurd hq hset
  · rintro ⟨hbelow, hback, hne⟩
    exact absurd (h.tree.below_antisymm (h.places.source_live hr) hbelow hback).symm hne

theorem WellFormed.registerNode {n : NodeId} (h : g.WellFormed settled) :
    (g.registerNode n s).WellFormed settled :=
  congr (treeView_modifyScope fun _ => ⟨rfl, rfl, rfl⟩)
    (declView_modifyScope (g := g) fun _ => ⟨rfl, rfl⟩)
      (placeView_modifyScope (g := g) fun _ => rfl) rfl
    (throughView_modifyScope fun _ => rfl) h

/-- Two graphs have the same variables and references. -/
structure SameEntries (g g' : ScopeGraph) : Prop where
  vars : g'.vars = g.vars
  references : g'.references = g.references

namespace SameEntries

variable {g' : ScopeGraph} {r : ReferenceId} (h : SameEntries g g')

include h

theorem variableAt_eq (v : VariableId) : g'.variableAt v = g.variableAt v := by
  rw [variableAt, variableAt, h.vars]

theorem referenceAt_eq (r : ReferenceId) : g'.referenceAt r = g.referenceAt r := by
  rw [referenceAt, referenceAt, h.references]

theorem liveVariable_iff {v : VariableId} : g'.LiveVariable v ↔ g.LiveVariable v := by
  rw [LiveVariable, LiveVariable, h.variableAt_eq, h.vars]

theorem liveReference_iff : g'.LiveReference r ↔ g.LiveReference r := by
  rw [LiveReference, LiveReference, h.referenceAt_eq, h.references]

theorem owner_eq (r : ReferenceId) : g'.owner? r = g.owner? r := by
  simp only [owner?, h.referenceAt_eq, h.variableAt_eq]

theorem declares (hd : g.Declares s) (hvars : (g'.scopeAt s).vars = (g.scopeAt s).vars)
    (hset : (g'.scopeAt s).set = (g.scopeAt s).set) : g'.Declares s := by
  refine hd.congr hvars hset ?_ fun v _ => by rw [h.variableAt_eq]
  intro v
  rw [h.liveVariable_iff, h.variableAt_eq]

theorem bindings (hb : g.BindingLinks) : g'.BindingLinks := by
  refine ⟨?_, ?_⟩
  · intro v r
    rw [h.variableAt_eq, h.liveReference_iff, h.referenceAt_eq]
    exact hb.mem_references
  · intro r v
    rw [h.liveReference_iff, h.referenceAt_eq, h.liveVariable_iff]
    exact hb.bound_live

end SameEntries

/-! New scopes. -/

section AddScope

variable {kind : ScopeKind} {block : NodeId} {upper : Option ScopeId}

theorem scopeAt_of_size_le (hs : g.scopes.size ≤ s) : g.scopeAt s = default := by
  simp [scopeAt, Array.getD_eq_getD_getElem?, Array.getElem?_eq_none hs]

/-- The scope that the declarations of a new scope belong to. -/
def newVariableScope (g : ScopeGraph) (kind : ScopeKind) : Option ScopeId → ScopeId
  | some u => if kind.isVariableScope then g.scopes.size else (g.scopeAt u).variableScope
  | none => g.scopes.size

section

variable (kind block) (hu : ∀ u, upper = some u → u < g.scopes.size)

include hu

/-- The new scope has only its upper scope, which lists it; all others are as before. -/
theorem scopeAt_addScope (t : ScopeId) :
    (g.addScope kind block upper).2.scopeAt t =
      if t = g.scopes.size then
        ⟨kind, block, upper, [], g.newVariableScope kind upper, [], [], [], [], false⟩
      else if upper = some t then
        { g.scopeAt t with children := (g.scopeAt t).children ++ [g.scopes.size] }
      else g.scopeAt t := by
  cases upper with
  | none =>
    have hget : (g.addScope kind block none).2.scopeAt t =
        (g.scopes.push ⟨kind, block, none, [], g.scopes.size, [], [], [], [], false⟩).getD t
          default := rfl
    rw [hget, getD_push]
    simp [scopeAt, newVariableScope]
  | some u =>
    have hlt := hu u rfl
    let new : Scope :=
      ⟨kind, block, some u, [], g.newVariableScope kind (some u), [], [], [], [], false⟩
    have hget : (g.addScope kind block (some u)).2.scopeAt t = ((g.scopes.push new).modify u fun s =>
          { s with children := s.children ++ [g.scopes.size] }).getD t default := rfl
    rw [hget, getD_modify, getD_push, getD_push]
    by_cases ht : t = g.scopes.size
    · have hne := Nat.ne_of_gt hlt
      simp [ht, new, hne]
    · by_cases htu : t = u
      · subst htu
        simp [ht, scopeAt, Nat.lt_succ_of_lt hlt]
      · simp [ht, htu, scopeAt, Ne.symm htu]

/-- The scopes that were there differ in their children at most. -/
theorem scopeAt_addScope_old (hs : g.LiveScope s) :
    ∃ children, (g.addScope kind block upper).2.scopeAt s = { g.scopeAt s with children } := by
  rw [scopeAt_addScope kind block hu, if_neg (Nat.ne_of_lt hs.1)]
  split
  · exact ⟨_, rfl⟩
  · exact ⟨(g.scopeAt s).children, rfl⟩

end

theorem size_addScope : (g.addScope kind block upper).2.scopes.size = g.scopes.size + 1 := by
  cases upper <;> simp [addScope, modifyScope]

theorem up_addScope (hu : ∀ u, upper = some u → u < g.scopes.size) {t : ScopeId} :
    (g.addScope kind block upper).2.Up s t ↔ g.Up s t ∨ (s = g.scopes.size ∧ upper = some t) := by
  have heq := scopeAt_addScope kind block hu s
  rw [Up, Up, heq]
  by_cases hs : s = g.scopes.size
  · have hnone : (g.scopeAt s).upper = none := by
      rw [scopeAt_of_size_le (Nat.le_of_eq hs.symm)]
      rfl
    rw [hnone]
    simp [hs]
  · rw [if_neg hs]
    split <;> simp [hs]

theorem liveScope_addScope (hu : ∀ u, upper = some u → u < g.scopes.size) :
    (g.addScope kind block upper).2.LiveScope s ↔ g.LiveScope s ∨ s = g.scopes.size := by
  have heq := scopeAt_addScope kind block hu s
  rw [LiveScope, LiveScope, size_addScope, heq]
  by_cases hs : s = g.scopes.size
  · simp [hs]
  · have hlt : s < g.scopes.size + 1 ↔ s < g.scopes.size :=
      ⟨fun h => Nat.lt_of_le_of_ne (Nat.le_of_lt_succ h) hs, Nat.lt_succ_of_lt⟩
    rw [if_neg hs, hlt]
    split <;> simp [hs]

/-- A live scope is an old one or the new one. -/
theorem addScope_cases (kind : ScopeKind) (block : NodeId)
    (hu : ∀ u, upper = some u → u < g.scopes.size)
    (hs : (g.addScope kind block upper).2.LiveScope s) :
    (g.LiveScope s ∧ ∃ children, (g.addScope kind block upper).2.scopeAt s =
      { g.scopeAt s with children }) ∨
    (s = g.scopes.size ∧ (g.addScope kind block upper).2.scopeAt s =
      ⟨kind, block, upper, [], g.newVariableScope kind upper, [], [], [], [], false⟩) := by
  rcases (liveScope_addScope hu).mp hs with hs | rfl
  · exact .inl ⟨hs, scopeAt_addScope_old kind block hu hs⟩
  · exact .inr ⟨rfl, (scopeAt_addScope kind block hu _).trans (if_pos rfl)⟩

/-- Above a live scope nothing changes. -/
theorem below_addScope (h : g.TreeLinks) (hu : ∀ u, upper = some u → u < g.scopes.size)
    {t : ScopeId}
    (hs : g.LiveScope s) : (g.addScope kind block upper).2.Below s t ↔ g.Below s t := by
  constructor
  · intro hb
    induction hb with
    | refl => exact .refl
    | tail _ hup ih =>
      rcases (up_addScope hu).mp hup with hup | ⟨heq, -⟩
      · exact ih.tail hup
      · exact absurd heq (Nat.ne_of_lt (h.live_of_below hs ih).1)
  · intro hb
    exact Relation.ReflTransGen.mono (fun _ _ hup => (up_addScope hu).mpr (.inl hup)) _ _ hb

theorem chain_addScope (h : g.TreeLinks) (hu : ∀ u, upper = some u → u < g.scopes.size)
    {l : List ScopeId}
    (hs : g.LiveScope s) (hl : g.Chain s l) : (g.addScope kind block upper).2.Chain s l := by
  induction hl with
  | @top s hnone =>
    refine .top ?_
    have heq := scopeAt_addScope kind block hu s
    rw [heq, if_neg (Nat.ne_of_lt hs.1)]
    split <;> exact hnone
  | step hup _ ih => exact .step ((up_addScope hu).mpr (.inl hup)) (ih (h.upper_live hs hup))

theorem TreeLinks.addScope (h : g.TreeLinks) (hu : ∀ u, upper = some u → g.LiveScope u) :
    (g.addScope kind block upper).2.TreeLinks := by
  have hlt : ∀ u, upper = some u → u < g.scopes.size := fun u he => (hu u he).1
  refine ⟨?_, ?_, ?_, ?_⟩
  · intro s
    rw [liveScope_addScope hlt]
    rintro (hs | rfl)
    · obtain ⟨l, hl⟩ := h.rooted hs
      exact ⟨l, chain_addScope h hlt hs hl⟩
    · cases hupper : upper with
      | none =>
        refine ⟨_, .top ?_⟩
        have heq := scopeAt_addScope (g := g) kind block (fun u (he : none = some u) => nomatch he) g.scopes.size
        rw [heq, if_pos rfl]
      | some u =>
        obtain ⟨l, hl⟩ := h.rooted (hu u hupper)
        rw [hupper] at hlt
        exact ⟨_, .step ((up_addScope hlt).mpr (.inr ⟨rfl, rfl⟩)) (chain_addScope h hlt (hu u hupper) hl)⟩
  · intro s u
    rw [liveScope_addScope hlt, liveScope_addScope hlt, up_addScope hlt]
    rintro (hs | rfl) (hup | ⟨heq, hup⟩)
    · exact .inl (h.upper_live hs hup)
    · exact absurd heq (Nat.ne_of_lt hs.1)
    · rw [Up, scopeAt_of_size_le (Nat.le_refl _)] at hup
      cases hup
    · exact .inl (hu u hup)
  · intro s
    rw [liveScope_addScope hlt]
    have heq := scopeAt_addScope kind block hlt s
    rw [heq]
    rintro (hs | rfl)
    · rw [if_neg (Nat.ne_of_lt hs.1)]
      split
      · rw [← List.concat_eq_append]
        exact .concat (fun hc => Nat.lt_irrefl _ ((h.mem_children hs).mp hc).1.1) (h.children_nodup hs)
      · exact h.children_nodup hs
    · simp
  · intro s c
    rw [liveScope_addScope hlt, liveScope_addScope hlt, up_addScope hlt]
    have heq := scopeAt_addScope kind block hlt s
    rw [heq]
    rintro (hs | rfl)
    · have hnew : ¬ g.Up g.scopes.size s := by
        rw [Up, scopeAt_of_size_le (Nat.le_refl _)]
        intro he
        cases he
      rw [if_neg (Nat.ne_of_lt hs.1)]
      have hmem := h.mem_children (c := c) hs
      by_cases hus : upper = some s
      · rw [if_pos hus, List.mem_append, List.mem_singleton, hmem]
        constructor
        · rintro (⟨hc, hup⟩ | rfl)
          · exact ⟨.inl hc, .inl hup⟩
          · exact ⟨.inr rfl, .inr ⟨rfl, hus⟩⟩
        · rintro ⟨hc | hc, hup | ⟨hc', -⟩⟩
          · exact .inl ⟨hc, hup⟩
          · exact .inr hc'
          · exact .inr hc
          · exact .inr hc
      · rw [if_neg hus, hmem]
        constructor
        · rintro ⟨hc, hup⟩
          exact ⟨.inl hc, .inl hup⟩
        · rintro ⟨hc | rfl, hup | ⟨-, hup⟩⟩
          · exact ⟨hc, hup⟩
          · exact absurd hup hus
          · exact absurd hup hnew
          · exact absurd hup hus
    · have hnone : ¬ (upper = some g.scopes.size) := fun he => Nat.lt_irrefl _ (hlt _ he)
      rw [if_pos rfl]
      constructor
      · intro hc
        cases hc
      · rintro ⟨hc | rfl, hup | ⟨-, hup⟩⟩
        · exact absurd rfl (Nat.ne_of_lt (h.upper_live hc hup).1)
        · exact absurd hup hnone
        · rw [Up, scopeAt_of_size_le (Nat.le_refl _)] at hup
          cases hup
        · exact absurd hup hnone

/-- A new scope under a live one, or under none, is well-formed. -/
theorem WellFormed.addScope (h : g.WellFormed settled) (hu : ∀ u, upper = some u → g.LiveScope u) :
    (g.addScope kind block upper).2.WellFormed settled := by
  have hlt : ∀ u, upper = some u → u < g.scopes.size := fun u he => (hu u he).1
  have hsame : SameEntries g (g.addScope kind block upper).2 := by cases upper <;> exact ⟨rfl, rfl⟩
  refine ⟨h.tree.addScope hu, .of_declares ?_ ?_, ⟨?_, ?_⟩, hsame.bindings h.bindings, ⟨?_, ?_⟩, ?_⟩
  · intro v hv
    rw [hsame.variableAt_eq, liveScope_addScope hlt]
    exact .inl (h.declarations.scope_live (hsame.liveVariable_iff.mp hv))
  · intro s hs
    rcases addScope_cases kind block hlt hs with ⟨hs, children, heq⟩ | ⟨rfl, heq⟩
    · exact hsame.declares (h.declarations.declares hs) (by rw [heq]) (by rw [heq])
    · refine .of_empty (by rw [heq]) (by rw [heq]) ?_
      intro v
      rw [hsame.liveVariable_iff, hsame.variableAt_eq]
      rintro ⟨hv, hscope⟩
      exact absurd hscope (Nat.ne_of_lt (h.declarations.scope_live hv).1)
  · intro r hr
    rw [hsame.referenceAt_eq, liveScope_addScope hlt]
    exact .inl (h.places.source_live (hsame.liveReference_iff.mp hr))
  · intro s r hs
    rw [hsame.liveReference_iff, hsame.referenceAt_eq]
    rcases addScope_cases kind block hlt hs with ⟨hs, children, heq⟩ | ⟨rfl, heq⟩ <;> rw [heq]
    · exact h.places.mem_references hs
    · constructor
      · intro hr
        cases hr
      · rintro ⟨hr, hsource⟩
        exact absurd hsource (Nat.ne_of_lt (h.places.source_live hr).1)
  · intro s r hs
    rw [hsame.liveReference_iff]
    rcases addScope_cases kind block hlt hs with ⟨hs, children, heq⟩ | ⟨-, heq⟩ <;> rw [heq]
    · exact h.through.live hs
    · intro hr
      cases hr
  · intro s hs
    rcases addScope_cases kind block hlt hs with ⟨hs, children, heq⟩ | ⟨-, heq⟩ <;> rw [heq]
    · exact h.through.nodup hs
    · exact List.nodup_nil
  · intro r hr hnot
    have hr := hsame.liveReference_iff.mp hr
    have hflow := h.flow hr hnot
    have hsource := h.places.source_live hr
    refine ⟨?_, ?_, ?_⟩
    · intro o
      rw [hsame.owner_eq, hsame.referenceAt_eq, below_addScope h.tree hlt hsource]
      exact hflow.below_owner
    · intro s hs
      rw [PassesThrough, hsame.owner_eq, hsame.referenceAt_eq, below_addScope h.tree hlt hsource]
      rcases addScope_cases kind block hlt hs with ⟨hs, children, heq⟩ | ⟨rfl, heq⟩ <;> rw [heq]
      · simp only [below_addScope h.tree hlt hs]
        exact hflow.mem_through hs
      · constructor
        · intro hr
          cases hr
        · rintro ⟨-, hbelow, -⟩
          exact absurd rfl (Nat.ne_of_lt (h.tree.live_of_below hsource hbelow).1)
    · intro o
      rw [hsame.owner_eq]
      exact hflow.settled_of_bound

end AddScope

end Loom.ScopeGraph
