import Loom.Dialect
import Loom.Proofs.Tree.Arena
import Loom.Proofs.Tree.Depth

/-!
Binding patterns, and the two walks that collect the identifiers that a pattern binds.

The walks stop at a depth, and one of them takes a member of an object and its value in one step. A
pattern has no part that it is a part of, so it is not deeper than the arena is large, and both of
them get to the end.
-/

open List

namespace Loom

open Relation Dialect ScopeGraph Kind

/-- The nodes that a pattern leaves the binding to. -/
def Kind.patternParts : Kind → List NodeId
  | .objectPattern properties => properties
  | .property _ value .. => [value]
  | .arrayPattern elements => elements.filterMap id
  | .assignmentPattern left _ => [left]
  | .restElement argument => [argument]
  | _ => []

/-- What a member of an object pattern binds: the value of a property, or the argument of a rest
element. -/
def Kind.memberValue? : Kind → Option NodeId
  | .property _ value .. => some value
  | .restElement argument => some argument
  | _ => none

theorem Kind.patternParts_of_memberValue? {k : Kind} {v : NodeId} (h : k.memberValue? = some v) :
    k.patternParts = [v] := by
  unfold memberValue? at h
  split at h
  all_goals cases h
  all_goals rfl

namespace Arena

variable {a : Arena} {p c i v : NodeId} {fuel fuel' : Nat}

/-- `c` is a part of the pattern `p`. -/
def HasPart (a : Arena) (p c : NodeId) : Prop := c ∈ (a.kind p).patternParts

/-- Patterns of identifiers, objects with properties and rest elements, arrays with holes, defaults
and rest elements. -/
inductive IsPattern (a : Arena) : NodeId → Prop
  | identifier {name : String} {p : NodeId} (hkind : a.kind p = .identifier name) : a.IsPattern p
  | object {p : NodeId} {members : List NodeId} (hkind : a.kind p = .objectPattern members)
      (hmembers : ∀ c ∈ members, (a.kind c).memberValue?.isSome = true)
      (hvalues : ∀ c ∈ members, ∀ v, (a.kind c).memberValue? = some v → a.IsPattern v) : a.IsPattern p
  | array {p : NodeId} {elements : List (Option NodeId)} (hkind : a.kind p = .arrayPattern elements)
      (helements : ∀ c, some c ∈ elements → a.IsPattern c) : a.IsPattern p
  | default {p left right : NodeId} (hkind : a.kind p = .assignmentPattern left right)
    (hleft : a.IsPattern left) :
      a.IsPattern p
  | rest {p argument : NodeId} (hkind : a.kind p = .restElement argument)
    (hargument : a.IsPattern argument) :
      a.IsPattern p

/-! Depth. -/

theorem IsPattern.lt_size (h : a.IsPattern p) : p < a.size := by
  cases h
  all_goals exact lt_size_of_kind (by simp [*])

theorem IsPattern.acc (h : a.IsPattern p) : Acc (fun c p => a.HasPart p c) p := by
  induction h with
  | identifier hkind => exact ⟨_, fun c hc => by simp [HasPart, hkind, patternParts] at hc⟩
  | object hkind hmembers _ ih =>
    refine ⟨_, fun c hc => ⟨_, fun w hw => ?_⟩⟩
    simp only [HasPart, hkind, patternParts] at hc
    obtain ⟨v, hv⟩ := Option.isSome_iff_exists.mp (hmembers c hc)
    rw [HasPart, patternParts_of_memberValue? hv, mem_singleton] at hw
    exact hw ▸ ih c hc v hv
  | array hkind _ ih =>
    refine ⟨_, fun c hc => ih c ?_⟩
    simpa [HasPart, hkind, patternParts] using hc
  | default hkind _ ih | rest hkind _ ih =>
    refine ⟨_, fun c hc => ?_⟩
    simp only [HasPart, hkind, patternParts, mem_singleton] at hc
    exact hc ▸ ih

theorem not_cycle_of_acc (h : Acc (fun c p => a.HasPart p c) p) : ¬ TransGen a.HasPart p p := by
  induction h with
  | intro p _ ih =>
    intro hcycle
    -- The first step of the cycle leads to a part that is on it too.
    obtain ⟨c, hc, hcp⟩ := TransGen.head'_iff.mp hcycle
    exact ih c hc (.tail' hcp hc)

theorem reachCount_part (h : Acc (fun c p => a.HasPart p c) p) (hc : a.HasPart p c)
    (hlt : c < a.size) : reachCount a.HasPart a.size c < reachCount a.HasPart a.size p :=
  reachCount_lt (not_cycle_of_acc (h.inv hc)) hc hlt

/-! The walks. -/

theorem bindingIdentifiersWithin_succ : bindingIdentifiersWithin a (fuel + 1) p =
    if (a.identifierName? p).isSome then [p]
    else (a.kind p).patternParts.flatMap (bindingIdentifiersWithin a fuel) := by
  rw [bindingIdentifiersWithin]
  unfold identifierName? patternParts
  split <;> simp_all

theorem identifierName?_of_mem (h : i ∈ bindingIdentifiersWithin a fuel p) :
    (a.identifierName? i).isSome = true := by
  induction fuel generalizing p with
  | zero => cases h
  | succ fuel ih =>
    rw [bindingIdentifiersWithin_succ] at h
    split at h
    · rename_i hname
      exact mem_singleton.mp h ▸ hname
    · obtain ⟨c, -, hc⟩ := mem_flatMap.mp h
      exact ih hc

theorem bindingIdentifiersWithin_member (h : (a.kind c).memberValue? = some v) :
    bindingIdentifiersWithin a (fuel + 1) c = bindingIdentifiersWithin a fuel v := by
  rw [bindingIdentifiersWithin]
  unfold memberValue? at h
  split at h
  all_goals cases h
  all_goals simp [*]

theorem patternIdentifiersWithin_object {members : List NodeId}
    (hkind : a.kind p = .objectPattern members) :
    patternIdentifiersWithin a (fuel + 1) p = members.flatMap fun c =>
      ((a.kind c).memberValue?.map (patternIdentifiersWithin a fuel)).getD [] := by
  rw [patternIdentifiersWithin, hkind]
  refine congrArg (List.flatMap · members) (funext fun c => ?_)
  unfold memberValue?
  split
  all_goals simp [*]

/-- Where both walks may go deeper than there are parts, they find the same identifiers in the same
order. -/
theorem IsPattern.identifiersWithin_eq (h : a.IsPattern p)
    (hfuel : reachCount a.HasPart a.size p < fuel)
    (hfuel' : reachCount a.HasPart a.size p < fuel') :
    patternIdentifiersWithin a fuel p = bindingIdentifiersWithin a fuel' p := by
  induction fuel generalizing p fuel' with
  | zero => exact absurd hfuel (Nat.not_lt_zero _)
  | succ fuel ih =>
    obtain ⟨fuel', rfl⟩ := Nat.exists_eq_add_one_of_ne_zero (Nat.ne_zero_of_lt hfuel')
    have hacc := h.acc
    have hstep : ∀ {c}, a.IsPattern c → a.HasPart p c →
        patternIdentifiersWithin a fuel c = bindingIdentifiersWithin a fuel' c := fun hp hc => by
      have hless := reachCount_part hacc hc hp.lt_size
      exact ih hp (by omega) (by omega)
    cases h with
    | identifier hkind => rw [patternIdentifiersWithin, bindingIdentifiersWithin, hkind]
    | object hkind hmembers hvalues =>
      rw [patternIdentifiersWithin_object hkind, bindingIdentifiersWithin, hkind]
      refine flatMap_congr fun c hc => ?_
      obtain ⟨v, hv⟩ := Option.isSome_iff_exists.mp (hmembers c hc)
      have hmember : a.HasPart p c := by rwa [HasPart, hkind]
      have hvalue : a.HasPart c v := by simp [HasPart, patternParts_of_memberValue? hv]
      have hless := reachCount_part hacc hmember (lt_size_of_kind fun hc => by simp [hc, memberValue?] at hv)
      have hless' := reachCount_part (hacc.inv hmember) hvalue (hvalues c hc v hv).lt_size
      obtain ⟨fuel', rfl⟩ : ∃ n, fuel' = n + 1 := ⟨fuel' - 1, by omega⟩
      rw [hv, bindingIdentifiersWithin_member hv]
      exact ih (hvalues c hc v hv) (by omega) (by omega)
    | array hkind helements =>
      rw [patternIdentifiersWithin, bindingIdentifiersWithin, hkind]
      refine flatMap_congr fun c hc => hstep (helements c ?_) ?_
      · simpa using hc
      · rwa [HasPart, hkind]
    | default hkind hpart | rest hkind hpart =>
      rw [patternIdentifiersWithin, bindingIdentifiersWithin, hkind]
      exact hstep hpart (by simp [HasPart, hkind, patternParts])

theorem IsPattern.identifiers_eq (h : a.IsPattern p) :
    patternIdentifiers a p = bindingIdentifiers a p := by
  have hcount := reachCount_lt_size (not_cycle_of_acc h.acc) h.lt_size
  exact h.identifiersWithin_eq hcount hcount

end Arena

end Loom
