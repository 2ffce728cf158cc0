import Loom.Proofs.Weave.Stretch
import Mathlib.Data.List.Perm.Basic

/-!
The slots that tasks fill. A markup node gets its number when its construct is reached, and the
slots of a construct are used once, so two tasks never fill the same slot. Within a task only the
parameters of a snippet share one.
-/

namespace Loom

/-- The slot that a fragment is for. -/
def Fragment.slot (f : Fragment) : NodeId × SlotField := (f.owner, f.field)

/-- The slot that an embedded part is for. -/
def Pending.slot (p : Pending) : NodeId × SlotField := (p.owner, p.field)

/-- The embedded part that a fragment is for. -/
def Fragment.pending (f : Fragment) : Pending := ⟨f.owner, f.field, f.source⟩

/-- Two tasks fill different slots. -/
def Task.SlotsApart (t t' : Task) : Prop := ∀ f ∈ t.fragments, ∀ f' ∈ t'.fragments, f.slot ≠ f'.slot

/-- The fragments of a loop are all for the node of the loop. -/
def Action.Owns (action : Action) (fs : List Fragment) : Prop :=
  ∀ owner placeholder, action = .eachBlock owner placeholder → ∀ f ∈ fs, f.owner = owner

/-- The slots of a task are different, except for parameters. -/
structure Task.OwnSlots (t : Task) : Prop where
  apart : t.fragments.Pairwise fun f f' => f.slot = f'.slot → f.field = .param
  owns : t.action.Owns t.fragments

theorem Task.SlotsApart.symm {t t' : Task} (h : t.SlotsApart t') : t'.SlotsApart t :=
  fun f hf f' hf' he => h f' hf' f hf he.symm

/-- The markup nodes that own scopes of a wrapper. -/
def Action.owners : Action → List NodeId
  | .ifBlock owner elseOwner => owner :: elseOwner.toList
  | .eachBlock owner _ | .callback owner | .snippet owner => [owner]
  | .expression | .constTag => []

/-- The parts of a wrapper that share a slot are for its own node. -/
structure Action.Fits (action : Action) (ps : List Pending) : Prop where
  owns : ∀ owner placeholder, action = .eachBlock owner placeholder → ∀ p ∈ ps, p.owner = owner
  params : ∀ p ∈ ps, p.field = .param → p.owner ∈ action.owners

/-- Tasks fill slots of the first `n` nodes, each once. -/
structure Slotted (n : Nat) (ts : List Task) : Prop where
  owner_lt : ∀ f ∈ taskFragments ts, f.owner < n
  apart : ts.Pairwise Task.SlotsApart
  own : ∀ t ∈ ts, t.OwnSlots

/-- Parameters stay in one task, because no two tasks have the same owner. -/
theorem Slotted.of_once {n : Nat} {ts : List Task} (hlt : ∀ f ∈ taskFragments ts, f.owner < n)
    (honce : (taskFragments ts).Pairwise fun f f' => f.slot = f'.slot → f.field = .param)
    (howners : (ts.flatMap (·.action.owners)).Nodup)
    (hfits : ∀ t ∈ ts, t.action.Fits (t.fragments.map Fragment.pending)) : Slotted n ts := by
  have hparam : ∀ t ∈ ts, ∀ f ∈ t.fragments, f.field = .param →
      f.owner ∈ t.action.owners := fun t ht f hf =>
    (hfits t ht).params f.pending (List.mem_map_of_mem hf)
  obtain ⟨hown, hapart⟩ := List.pairwise_flatMap.mp honce
  obtain ⟨-, hdisj⟩ := List.pairwise_flatMap.mp howners
  refine ⟨hlt, (hapart.and hdisj).imp_of_mem fun {t t'} ht ht' hboth f hf f' hf' he => ?_,
    fun t ht => ?_⟩
  · have hfield := hboth.1 f hf f' hf' he
    have hfield' : f'.field = .param := (congrArg Prod.snd he).symm.trans hfield
    exact hboth.2 _ (hparam t ht f hf hfield) _ (hparam t' ht' f' hf' hfield')
      (congrArg Prod.fst he)
  · exact ⟨hown t ht, fun owner placeholder heq f hf =>
      (hfits t ht).owns owner placeholder heq f.pending (List.mem_map_of_mem hf)⟩

end Loom
