import Loom.Proofs.Scope.Lookup

/-!
References that are bound to what their names mean.

The lookup of a name takes the nearest scope upward that declares it. So a reference that is bound
lexically passes through the scopes above it up to the first one that declares its name.
-/

namespace Loom.ScopeGraph

variable {g : ScopeGraph} {settled : ReferenceId → Prop} {s t : ScopeId} {v : VariableId}
  {r : ReferenceId} {name : String}

/-- A reference is bound to what its name means, or free when it means nothing. -/
def Lexical (g : ScopeGraph) (r : ReferenceId) : Prop := (g.referenceAt r).resolved = g.meaning? r

instance (g : ScopeGraph) (r : ReferenceId) : Decidable (g.Lexical r) :=
  inferInstanceAs (Decidable (_ = _))

/-- A name means what the nearest scope upward declares that declares it at all. -/
theorem WellFormed.findVariable_eq_some_iff (h : g.WellFormed settled) (hs : g.LiveScope s) :
    g.findVariable s name = some v ↔ ∃ o, g.Below s o ∧ g.declared? o name = some v ∧
      ∀ u, g.Below s u → g.Below u o → u ≠ o → g.declared? u name = none := by
  have hchain := h.tree.chain_ancestors hs
  rw [ScopeGraph.findVariable, List.findSome?_eq_some_iff]
  constructor
  · rintro ⟨pre, o, post, hl, ho, hpre⟩
    rw [hl] at hchain
    exact ⟨o, hchain.mem_iff.mp (by simp), ho,
      fun u hu huo hne => hpre u (hchain.mem_before.mpr ⟨hu, huo, hne⟩)⟩
  · rintro ⟨o, hso, ho, hbefore⟩
    obtain ⟨pre, post, hl⟩ := List.append_of_mem (hchain.mem_iff.mpr hso)
    rw [hl] at hchain
    refine ⟨pre, o, post, hl, ho, fun u hu => ?_⟩
    obtain ⟨hu, huo, hne⟩ := hchain.mem_before.mp hu
    exact hbefore u hu huo hne

theorem WellFormed.findVariable_eq_none_iff (h : g.WellFormed settled) (hs : g.LiveScope s) :
    g.findVariable s name = none ↔ ∀ u, g.Below s u → g.declared? u name = none := by
  rw [ScopeGraph.findVariable, List.findSome?_eq_none_iff]
  simp only [h.tree.mem_ancestors hs]

/-- A reference passes through the scopes from its own upward as long as none declares its name. -/
theorem WellFormed.mem_through_iff (h : g.WellFormed fun _ => True) (hr : g.LiveReference r)
    (hlex : g.Lexical r) (ht : g.LiveScope t) :
    r ∈ (g.scopeAt t).through ↔ g.Below (g.referenceAt r).source t ∧
      ∀ u, g.Below (g.referenceAt r).source u → g.Below u t → g.declared? u (g.referenceAt r).name = none := by
  have hs := h.places.source_live hr
  have hflow := WellFormedBut.flow h hr id
  rw [hflow.mem_through ht, true_and]
  rw [Lexical] at hlex
  refine and_congr_right fun hst => ?_
  cases hres : (g.referenceAt r).resolved with
  | none =>
    rw [hres] at hlex
    have hnone := (h.findVariable_eq_none_iff hs).mp hlex.symm
    simpa [owner?, hres] using fun u hu _ => hnone u hu
  | some v =>
    rw [hres] at hlex
    obtain ⟨o, hso, ho, hbefore⟩ := (h.findVariable_eq_some_iff hs).mp hlex.symm
    have hlive := h.tree.live_of_below hs hso
    have howner : g.owner? r = some o := by
      rw [owner?, hres, Option.map_some, (h.declarations.declared hlive ho).2.1]
    simp only [howner, Option.some.injEq, forall_eq']
    constructor
    · rintro ⟨hto, hne⟩ u hu hut
      refine hbefore u hu (hut.trans hto) ?_
      rintro rfl
      exact hne (h.tree.below_antisymm ht hto hut)
    · intro hnone
      have hnot : ¬ g.Below o t := fun hot => by simp [hnone o hso hot] at ho
      refine ⟨(below_total hst hso).resolve_right hnot, ?_⟩
      rintro rfl
      exact hnot .refl

end Loom.ScopeGraph
