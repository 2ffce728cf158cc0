import Loom.Proofs.Scope.Declare
import Loom.Proofs.Scope.Reference

/-!
Resolving stores: the free references of a store name are bound to a variable of the top scope, and
at each of them the variable behind the store gets a reference that is made bound.
-/

namespace Loom.ScopeGraph

variable {g : ScopeGraph} {settled : ReferenceId → Prop}

/-! What binding free references leaves alone. -/

section DeclareImplicit

variable {s : ScopeId} {name : String}

/-- The variables that are there stay where they are. -/
theorem scope_declareImplicit (name : String) {w : VariableId} (hw : g.LiveVariable w) :
    (g.declareImplicit s name).2.LiveVariable w ∧
      ((g.declareImplicit s name).2.variableAt w).scope = (g.variableAt w).scope := by
  have hdecl : (g.declareImplicit s name).2.declView =
      (g.ensureVariable s name).2.declView := view_resolveThrough declView
  rw [liveVariable_congr hdecl, scope_congr hdecl]
  unfold ensureVariable
  split
  · exact ⟨hw, rfl⟩
  · rw [liveVariable_createVariable, variableAt_createVariable, if_neg (Nat.ne_of_lt hw.1)]
    exact ⟨.inl hw, rfl⟩

/-- The references bound to the declared variable are made at or below its scope. -/
theorem WellFormed.below_declareImplicit (name : String) (r : ReferenceId)
    (h : g.WellFormed settled) (hs : g.LiveScope s)
    (hr : r ∈ ((g.declareImplicit s name).2.variableAt (g.declareImplicit s name).1).references) :
    (g.declareImplicit s name).2.LiveScope ((g.declareImplicit s name).2.referenceAt r).source ∧
      (g.declareImplicit s name).2.Below ((g.declareImplicit s name).2.referenceAt r).source s := by
  have hwf : (g.declareImplicit s name).2.WellFormed settled := h.declareImplicit hs
  have hdecl : (g.declareImplicit s name).2.declView =
      (g.ensureVariable s name).2.declView := view_resolveThrough declView
  have hscope : ((g.declareImplicit s name).2.variableAt (g.declareImplicit s name).1).scope =
      s := by
    rw [scope_congr hdecl]
    exact (WellFormedBut.ensureVariable name h hs).2.2
  obtain ⟨hlive, hres⟩ := hwf.bindings.mem_references.mp hr
  refine ⟨hwf.places.source_live hlive, (hwf.flow hlive id).below_owner ?_⟩
  rw [owner?, hres, Option.map_some, hscope]

end DeclareImplicit

/-! References made bound, one after the other. -/

section Synthesize

variable {identifier : NodeId} {v : VariableId} {s : ScopeId} {access : Access}

/-- Nothing to make is nothing made. -/
theorem WellFormed.settle_none (h : g.WellFormed settled) :
    g.WellFormed fun r => settled r ∨ g.references.size ≤ r := by
  refine WellFormedBut.weaken h fun {r} hr _ => ⟨id, ?_⟩
  have hlt := Nat.not_le_of_lt hr.1
  simp [hlt]

theorem WellFormed.synthesizeAll (sites : List (NodeId × ScopeId)) (h : g.WellFormed settled)
    (hv : g.LiveVariable v)
    (hsites : ∀ site ∈ sites, g.LiveScope site.2 ∧ g.Below site.2 (g.variableAt v).scope) :
    let g' := sites.foldl (fun g site => (g.synthesizeReference site.1 v site.2 .read).2) g
    g'.WellFormed (fun r => settled r ∨ g.references.size ≤ r) ∧ g'.treeView = g.treeView ∧
      g.references.size ≤ g'.references.size := by
  induction sites generalizing g settled with
  | nil => exact ⟨h.settle_none, rfl, Nat.le_refl _⟩
  | cons site sites ih =>
    obtain ⟨hs, hbelow⟩ := hsites site (by simp)
    let one := (g.synthesizeReference site.1 v site.2 .read).2
    have hone : one.WellFormed fun r => settled r ∨ r = g.references.size :=
      h.synthesizeReference hv hs hbelow
    have htree : one.treeView = g.treeView := view_synthesizeReference treeView
    have hdecl : one.declView = g.declView := view_synthesizeReference declView
    have hsize : one.references.size = g.references.size + 1 :=
      (congrArg Prod.fst (view_addThroughs placeView)).trans (Array.size_push ..)
    have hv' : one.LiveVariable v := hv.of_declaration hdecl
    have hsites' : ∀ site ∈ sites, one.LiveScope site.2 ∧ one.Below site.2 (one.variableAt v).scope := by
      intro site hsite
      rw [liveScope_congr htree, below_congr_tree htree, scope_congr hdecl]
      exact hsites site (List.mem_cons_of_mem _ hsite)
    obtain ⟨hwf, htree', hle⟩ := ih hone hv' hsites'
    refine ⟨WellFormedBut.weaken hwf fun {r} _ _ => ⟨id, ?_⟩, htree'.trans htree, ?_⟩
    · rw [hsize, or_assoc]
      have hsplit : r = g.references.size ∨ g.references.size + 1 ≤ r ↔ g.references.size ≤ r := by
        constructor
        · rintro (rfl | hlt)
          · exact Nat.le_refl _
          · exact Nat.le_of_succ_le hlt
        · exact fun hle => (Nat.eq_or_lt_of_le hle).imp Eq.symm id
      rw [hsplit]
    · rw [hsize] at hle
      exact Nat.le_of_succ_le hle

end Synthesize

/-! Stores. -/

theorem liveScope_topScope (h : g.TreeLinks) (hglobal : g.LiveScope globalScope) :
    g.LiveScope g.topScope := by
  unfold topScope
  cases hmod : g.moduleScope? with
  | none => exact hglobal
  | some s =>
    unfold moduleScope? at hmod
    split at hmod
    · cases hmod
    · exact ((h.mem_children hglobal).mp (List.mem_of_find?_eq_some hmod)).1

theorem WellFormed.resolveStore (storeName : String) (h : g.WellFormed settled)
    (hglobal : g.LiveScope globalScope) :
    (g.resolveStore storeName).2.WellFormed (fun r => settled r ∨ g.references.size ≤ r) ∧
      (g.resolveStore storeName).2.treeView = g.treeView ∧
      g.references.size ≤ (g.resolveStore storeName).2.references.size := by
  have htop := liveScope_topScope h.tree hglobal
  unfold ScopeGraph.resolveStore
  dsimp only
  split
  · exact ⟨h.settle_none, rfl, Nat.le_refl _⟩
  · rename_i underlying hunder
    obtain ⟨hlive, hscope, -⟩ := h.declarations.declared htop hunder
    obtain ⟨hlive', hscope'⟩ := scope_declareImplicit storeName hlive
    have hsize : (g.declareImplicit g.topScope storeName).2.references.size = g.references.size :=
      congrArg Prod.fst (view_declareImplicit placeView)
    have htree : (g.declareImplicit g.topScope storeName).2.treeView = g.treeView := view_declareImplicit treeView
    have hwf : (g.declareImplicit g.topScope storeName).2.WellFormed settled :=
      h.declareImplicit htop
    have hbelow := fun r => h.below_declareImplicit storeName r htop
    generalize g.declareImplicit g.topScope storeName = declared at hlive' hscope' hsize htree hwf hbelow ⊢
    obtain ⟨store, g1⟩ := declared
    have hall := hwf.synthesizeAll ((g1.variableAt store).references.map fun r =>
      ((g1.referenceAt r).identifier, (g1.referenceAt r).source)) hlive' ?_
    · rw [hsize] at hall
      exact ⟨hall.1, hall.2.1.trans htree, hall.2.2⟩
    · intro site hsite
      obtain ⟨r, hr, rfl⟩ := List.mem_map.mp hsite
      rw [hscope', hscope]
      exact hbelow r hr

theorem WellFormed.resolveStores (h : g.WellFormed settled) (hglobal : g.LiveScope globalScope) :
    g.resolveStores.2.WellFormed fun r => settled r ∨ g.references.size ≤ r := by
  unfold ScopeGraph.resolveStores
  generalize g.storeCandidates = candidates
  generalize [] = names
  induction candidates generalizing g settled names with
  | nil => exact h.settle_none
  | cons storeName candidates ih =>
    obtain ⟨hwf, htree, hle⟩ := h.resolveStore storeName hglobal
    refine WellFormedBut.weaken (ih hwf ?_ _) fun {r} _ _ => ⟨id, ?_⟩
    · rw [liveScope_congr htree]
      exact hglobal
    · have hlater : (g.resolveStore storeName).2.references.size ≤ r → g.references.size ≤ r := Nat.le_trans hle
      tauto

end Loom.ScopeGraph
