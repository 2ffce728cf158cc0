import Loom.Proofs.Scope.Merge
import Loom.Proofs.Scope.Store

/-!
The index of the scopes by their nodes.

Each live scope that a node has is filed under its own block. Edits of variables and references
leave the index alone; a scope that goes, or goes to another node, takes its entry with it.
-/

open List

namespace Loom

namespace NodeIndex

variable {x : NodeIndex} {n m : NodeId} {i j : Nat}

/-- Every node has one list. -/
def Keyed (x : NodeIndex) : Prop := (x.map Prod.fst).Nodup

theorem get_cons (n m : NodeId) (is : List Nat) (x : NodeIndex) :
    get ((n, is) :: x) m = if m = n then is else get x m := by
  unfold get
  rw [lookup_cons]
  by_cases h : m = n
  · simp [h]
  · rw [beq_false_of_ne h, if_neg h]

theorem get_of_notMem (h : n ∉ x.map Prod.fst) : x.get n = [] := by
  induction x with
  | nil => rfl
  | cons e x ih =>
    rw [map_cons, mem_cons, not_or] at h
    rw [get_cons, if_neg h.1, ih h.2]

/-- What is filed under a node is the list of an entry. -/
theorem entry_of_mem (h : i ∈ x.get n) : (n, x.get n) ∈ x := by
  unfold get at h ⊢
  cases hlookup : x.lookup n with
  | none => simp [hlookup] at h
  | some is =>
    obtain ⟨l, l', heq, -⟩ := lookup_eq_some_iff.mp hlookup
    simp [heq]

theorem get_push (x : NodeIndex) (n : NodeId) (i : Nat) (m : NodeId) :
    (x.push n i).get m = if m = n then x.get n ++ [i] else x.get m := by
  induction x with
  | nil =>
    rw [push, get_cons]
    rfl
  | cons e x ih =>
    unfold push
    split
    · rename_i hk
      subst hk
      rw [get_cons, get_cons, get_cons, if_pos rfl]
      split <;> rfl
    · rename_i hk
      rw [get_cons, get_cons, get_cons, ih]
      by_cases hm : m = n
      · subst hm
        simp [Ne.symm hk]
      · simp [hm]

theorem mem_get_push : j ∈ (x.push n i).get m ↔ j ∈ x.get m ∨ m = n ∧ j = i := by
  rw [get_push]
  by_cases hm : m = n <;> simp [hm]

theorem nodup_get_push (h : (x.get m).Nodup) (hnew : i ∉ x.get n) : ((x.push n i).get m).Nodup := by
  rw [get_push]
  split
  · rename_i hm
    refine (perm_append_singleton ..).nodup_iff.mpr (nodup_cons.mpr ⟨hnew, hm ▸ h⟩)
  · exact h

theorem mem_keys_push : m ∈ (x.push n i).map Prod.fst ↔ m = n ∨ m ∈ x.map Prod.fst := by
  induction x with
  | nil => simp [push]
  | cons e x ih =>
    unfold push
    split
    · rename_i hk
      simp [hk]
    · rw [map_cons, mem_cons, map_cons, mem_cons]
      tauto

theorem Keyed.push (h : x.Keyed) (n : NodeId) (i : Nat) : (x.push n i).Keyed := by
  unfold Keyed at h ⊢
  induction x with
  | nil => simp [NodeIndex.push]
  | cons e x ih =>
    rw [map_cons, nodup_cons] at h
    unfold NodeIndex.push
    split
    · exact nodup_cons.mpr h
    · rename_i hk
      refine nodup_cons.mpr ⟨fun hmem => ?_, ih h.2⟩
      exact (mem_keys_push.mp hmem).elim hk h.1

theorem keys_remove_sublist (x : NodeIndex) (n : NodeId) (i : Nat) :
    ((x.remove n i).map Prod.fst).Sublist (x.map Prod.fst) := by
  induction x with
  | nil => exact .refl _
  | cons e x ih =>
    unfold remove
    split
    · dsimp only
      split
      · exact sublist_cons_self ..
      · exact .refl _
    · exact ih.cons_cons _

theorem Keyed.remove (h : x.Keyed) (n : NodeId) (i : Nat) : (x.remove n i).Keyed :=
  List.Nodup.sublist (keys_remove_sublist x n i) h

theorem Keyed.get_remove (h : x.Keyed) (n : NodeId) (i : Nat) (m : NodeId) :
    (x.remove n i).get m = if m = n then (x.get n).filter (· != i) else x.get m := by
  unfold Keyed at h
  induction x with
  | nil => simp [NodeIndex.remove, get]
  | cons e x ih =>
    rw [map_cons, nodup_cons] at h
    unfold NodeIndex.remove
    split
    · rename_i hk
      subst hk
      -- A node that lost its last number is not there any more.
      dsimp only
      split
      · rename_i hempty
        rw [get_cons, get_cons, if_pos rfl]
        split
        · rename_i hm
          rw [hm, get_of_notMem h.1, isEmpty_iff.mp hempty]
        · rfl
      · rw [get_cons, get_cons, get_cons, if_pos rfl]
        split <;> rfl
    · rename_i hk
      rw [get_cons, get_cons, get_cons, ih h.2]
      by_cases hm : m = n
      · subst hm
        simp [Ne.symm hk]
      · simp [hm]

theorem Keyed.nodup_get_remove (h : x.Keyed) (n : NodeId) (i : Nat) (hm : (x.get m).Nodup) :
    ((x.remove n i).get m).Nodup := by
  rw [h.get_remove]
  split
  · rename_i he
    exact (he ▸ hm).filter _
  · exact hm

end NodeIndex

namespace ScopeGraph

variable {g g' : ScopeGraph}

/-! What reads only the nodes in a graph. -/

/-- The index of the scopes, and the nodes that they belong to. -/
def nodeView (g : ScopeGraph) : NodeIndex × (ScopeId → NodeId) :=
  (g.nodeScopes, fun s => (g.scopeAt s).block)

/-- The index of the references, and the identifiers that make them. -/
def mentionView (g : ScopeGraph) : NodeIndex × (ReferenceId → NodeId) :=
  (g.identifierReferences, fun r => (g.referenceAt r).identifier)

theorem nodeView_modifyScope {s : ScopeId} {f : Scope → Scope} (hf : ∀ x, (f x).block = x.block) :
    (g.modifyScope s f).nodeView = g.nodeView := by
  unfold nodeView
  congr 1
  funext t
  exact field_modifyScope (·.block) hf g s t

instance : IgnoresContents nodeView where
  through := nodeView_modifyScope fun _ => rfl
  made := nodeView_modifyScope fun _ => rfl
  declared := nodeView_modifyScope fun _ => rfl

instance : IgnoresMentions nodeView := ⟨rfl⟩

instance : IgnoresTree nodeView := ⟨nodeView_modifyScope fun _ => rfl⟩

theorem mentionView_modifyReference {r : ReferenceId} {f : Reference → Reference}
    (hf : ∀ x, (f x).identifier = x.identifier) :
    (g.modifyReference r f).mentionView = g.mentionView := by
  unfold mentionView
  congr 1
  funext q
  exact field_modifyReference (·.identifier) hf g r q

instance : IgnoresContents mentionView where
  resolved := mentionView_modifyReference fun _ => rfl
  source := mentionView_modifyReference fun _ => rfl
  gone := mentionView_modifyReference fun _ => rfl

instance : IgnoresTree mentionView := ⟨rfl⟩

end ScopeGraph

end Loom
