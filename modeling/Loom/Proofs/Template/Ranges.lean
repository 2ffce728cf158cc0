import Loom.Template.Ranges
import Mathlib.Logic.Relation

/-!
The ranges of a document, read off its structure.

A construct holds the ranges of its own parts, and constructs stand inside it at any depth.
Validation lists ranges in an order of its own; these are the same ranges.
-/

open List

namespace Loom.Template

open Markup

variable {m c : Markup} {d : Document} {source : Text}

/-! The parts of one construct. -/

def AttributeValue.ranges : AttributeValue → List Range
  | .text r _ => [r]
  | .mustache r e => [r, e]

def Attribute.ranges : Attribute → List Range
  | .plain r _ value => r :: value.flatMap AttributeValue.ranges
  | .shorthand r _ e | .spread r e => [r, e]
  | .directive d => d.range :: (d.nameRange.toList ++ d.expression.toList)

def AwaitBranch.ranges (b : AwaitBranch) : List Range := b.range :: b.binding.toList

/-- The ranges that a construct holds itself, with those of its attributes and branches. -/
def Markup.ranges : Markup → List Range
  | .element _ _ r nameRange attributes _ =>
    r :: (nameRange.toList ++ attributes.flatMap Attribute.ranges)
  | .text r _ => [r]
  | .mustache r e _ => [r, e]
  | .ifBlock r test _ _ elseBranch => r :: test :: elseBranch.toList.map Branch.range
  | .eachBlock r e context index key _ elseBranch =>
    r :: e :: (context.toList ++ index.toList ++ key.toList ++ elseBranch.toList.map Branch.range)
  | .awaitBlock r e pending fulfilled rejected =>
    r :: e ::
      (pending.toList.map Branch.range ++ (fulfilled.toList ++ rejected.toList).flatMap AwaitBranch.ranges)
  | .keyBlock r e _ => [r, e]
  | .snippetBlock r name params _ => r :: name :: params
  | .constTag r e | .renderTag r e => [r, e]

/-- The constructs directly inside a construct, in any of its branches. -/
def Markup.inner : Markup → List Markup
  | .element _ _ _ _ _ children | .keyBlock _ _ children | .snippetBlock _ _ _ children => children
  | .ifBlock _ _ _ children elseBranch | .eachBlock _ _ _ _ _ children elseBranch =>
    children ++ elseBranch.toList.flatMap Branch.children
  | .awaitBlock _ _ pending fulfilled rejected =>
    pending.toList.flatMap Branch.children ++ (fulfilled.toList ++ rejected.toList).flatMap
      AwaitBranch.children
  | .text .. | .mustache .. | .constTag .. | .renderTag .. => []

/-- `c` is the construct `m` or inside it, at any depth. -/
def Markup.Within (c m : Markup) : Prop := Relation.ReflTransGen (fun m c => c ∈ m.inner) m c

/-- The document holds the range, as the content of a script block or in a construct. -/
def Document.Records (d : Document) (r : Range) : Prop :=
  (∃ s ∈ d.scripts, s.content = r) ∨ ∃ m ∈ d.nodes, ∃ c : Markup, c.Within m ∧ r ∈ c.ranges

/-! The list that validation works off. -/

/-- A range stands in a list of recorded ranges, whatever its role. -/
def Listed (r : Range) (rs : List RecordedRange) : Prop := ∃ role, (role, r) ∈ rs

section Listed

variable {r : Range}

@[simp] theorem listed_nil : ¬ Listed r [] := by simp [Listed]

@[simp] theorem listed_cons {role : RangeRole} {r' : Range} {rs : List RecordedRange} :
    Listed r ((role, r') :: rs) ↔ r = r' ∨ Listed r rs := by
  constructor
  · rintro ⟨role', h⟩
    rcases mem_cons.mp h with heq | h
    · exact .inl (congrArg Prod.snd heq)
    · exact .inr ⟨role', h⟩
  · rintro (rfl | ⟨role', h⟩)
    · exact ⟨role, by simp⟩
    · exact ⟨role', by simp [h]⟩

@[simp] theorem listed_append {rs rs' : List RecordedRange} :
    Listed r (rs ++ rs') ↔ Listed r rs ∨ Listed r rs' := by
  simp only [Listed, mem_append, exists_or]

@[simp] theorem listed_map {role : RangeRole} {rs : List Range} :
    Listed r (rs.map fun r => (role, r)) ↔ r ∈ rs := by
  simp [Listed]

@[simp] theorem listed_option {role : RangeRole} {r' : Option Range} :
    Listed r (recordedOption role r') ↔ r' = some r := by
  simp [recordedOption]

theorem listed_flatMap {α : Type} {f : α → List RecordedRange} {xs : List α} :
    Listed r (xs.flatMap f) ↔ ∃ x ∈ xs, Listed r (f x) := by
  simp only [Listed, mem_flatMap]
  constructor
  · rintro ⟨role, x, hx, h⟩
    exact ⟨x, hx, role, h⟩
  · rintro ⟨x, hx, role, h⟩
    exact ⟨role, x, hx, h⟩

@[simp] theorem listed_recordedList {ms : List Markup} :
    Listed r (recordedList ms) ↔ ∃ m ∈ ms, Listed r m.recordedRanges := by
  induction ms with
  | nil => simp [recordedList]
  | cons m ms ih => simp [recordedList, ih]

@[simp] theorem listed_branchContent {b : Option Branch} : Listed r (Branch.recordedContent b) ↔
    ∃ m ∈ b.toList.flatMap Branch.children, Listed r m.recordedRanges := by
  rcases b with _ | ⟨_, children⟩
  · simp [Branch.recordedContent]
  · simp [Branch.recordedContent, Branch.children]

@[simp] theorem listed_awaitContent {b : Option AwaitBranch} :
    Listed r (AwaitBranch.recordedContent b) ↔
    ∃ m ∈ b.toList.flatMap AwaitBranch.children, Listed r m.recordedRanges := by
  rcases b with _ | ⟨_, _, children⟩
  · simp [AwaitBranch.recordedContent]
  · simp [AwaitBranch.recordedContent, AwaitBranch.children]

@[simp] theorem listed_awaitRanges {b : Option AwaitBranch} :
    Listed r (AwaitBranch.ownRanges b) ↔ ∃ x ∈ b, r ∈ x.ranges := by
  cases b with
  | none => simp [AwaitBranch.ownRanges]
  | some b => simp [AwaitBranch.ownRanges, AwaitBranch.ranges]

@[simp] theorem listed_attributeValue {v : AttributeValue} :
    Listed r v.recordedRanges ↔ r ∈ v.ranges := by
  cases v <;> simp [AttributeValue.recordedRanges, AttributeValue.ranges]

@[simp] theorem listed_attribute {a : Attribute} : Listed r a.recordedRanges ↔ r ∈ a.ranges := by
  cases a with
  | plain r' name value => simp [Attribute.recordedRanges, Attribute.ranges, listed_flatMap]
  | shorthand | spread | directive => simp [Attribute.recordedRanges, Attribute.ranges]

/-- The list of a construct holds its own ranges and those of the constructs directly inside. -/
theorem listed_markup :
    Listed r m.recordedRanges ↔ r ∈ m.ranges ∨ ∃ c ∈ m.inner, Listed r c.recordedRanges := by
  cases m with
  | element name kind r' nameRange attributes children =>
    simp [recordedRanges, Markup.ranges, Markup.inner, listed_flatMap, or_assoc]
  | text | mustache | constTag | renderTag => simp [recordedRanges, Markup.ranges, Markup.inner]
  | ifBlock | eachBlock | awaitBlock =>
    simp [recordedRanges, Markup.ranges, Markup.inner, or_assoc, or_and_right, exists_or]
  | keyBlock | snippetBlock => simp [recordedRanges, Markup.ranges, Markup.inner, or_assoc]

/-- A construct is larger than those directly inside it. -/
theorem Markup.sizeOf_lt_of_mem_inner (h : c ∈ m.inner) : sizeOf c < sizeOf m := by
  have hlist {cs : List Markup} (hc : c ∈ cs) : sizeOf c < sizeOf cs := sizeOf_lt_of_mem hc
  have hbranch {b : Option Branch} (hc : c ∈ b.toList.flatMap Branch.children) : sizeOf c <
      sizeOf b := by
    rcases b with _ | ⟨_, children⟩
    · simp at hc
    · have := hlist (by simpa [Branch.children] using hc)
      simp
      omega
  have hawait {b : Option AwaitBranch} (hc : c ∈ b.toList.flatMap AwaitBranch.children) : sizeOf c <
      sizeOf b := by
    rcases b with _ | ⟨_, _, children⟩
    · simp at hc
    · have := hlist (by simpa [AwaitBranch.children] using hc)
      simp
      omega
  cases m with
  | text | mustache | constTag | renderTag => cases h
  | element _ _ _ _ _ children | keyBlock _ _ children | snippetBlock _ _ _ children =>
    have hc : c ∈ children := h
    have := hlist hc
    simp
    omega
  | ifBlock _ _ _ children elseBranch | eachBlock _ _ _ _ _ children elseBranch =>
    rcases mem_append.mp h with h | h
    · have := hlist h
      simp
      omega
    · have := hbranch h
      simp
      omega
  | awaitBlock r e pending fulfilled rejected =>
    simp only [inner, flatMap_append, mem_append] at h
    rcases h with h | h | h
    · have := hbranch h
      simp
      omega
    · have := hawait h
      simp
      omega
    · have := hawait h
      simp
      omega

/-- What is listed for a construct is held at some depth. -/
theorem within_of_listed (m : Markup) (h : Listed r m.recordedRanges) :
    ∃ c : Markup, c.Within m ∧ r ∈ c.ranges := by
  rcases listed_markup.mp h with hr | ⟨c, hc, hlisted⟩
  · exact ⟨m, .refl, hr⟩
  · have hlt := sizeOf_lt_of_mem_inner hc
    obtain ⟨c', hc', hr⟩ := within_of_listed c hlisted
    exact ⟨c', .head hc hc', hr⟩
termination_by sizeOf m

theorem listed_of_within (hc : c.Within m) (hr : r ∈ c.ranges) : Listed r m.recordedRanges := by
  induction hc using Relation.ReflTransGen.head_induction_on with
  | refl => exact listed_markup.mpr (.inl hr)
  | head hinner _ ih => exact listed_markup.mpr (.inr ⟨_, hinner, ih⟩)

/-- Validation lists just the ranges that the document holds. -/
theorem listed_document : Listed r d.recordedRanges ↔ d.Records r := by
  have hscripts : Listed r (d.scripts.map fun s => (.scriptContent, s.content)) ↔ ∃ s ∈ d.scripts,
      s.content = r := by
    have hmap := @listed_map r .scriptContent (d.scripts.map ScriptBlock.content)
    rw [map_map, mem_map] at hmap
    exact hmap
  unfold Document.recordedRanges Document.Records
  rw [listed_append, hscripts, listed_recordedList]
  refine or_congr_right (exists_congr fun m => and_congr_right fun _ => ?_)
  constructor
  · exact within_of_listed m
  · rintro ⟨c, hc, hr⟩
    exact listed_of_within hc hr

end Listed

theorem validRange_iff {r : Range} :
    validRange source r ↔ (r.start ≤ r.stop ∧ r.stop ≤ Text.byteSize source) ∧
      Text.isBoundary source r.start ∧ Text.isBoundary source r.stop := by
  simp [validRange, and_assoc]

/-- Validation finds no fault just when all ranges of the document fit. -/
theorem rangeFault?_eq_none_iff :
    d.rangeFault? source = none ↔ ∀ r, d.Records r → validRange source r := by
  unfold Document.rangeFault?
  rw [Option.map_eq_none_iff, find?_eq_none]
  constructor
  · intro h r hr
    obtain ⟨role, hmem⟩ := listed_document.mpr hr
    simpa using h (role, r) hmem
  · rintro h ⟨role, r⟩ hmem
    simpa using h r (listed_document.mp ⟨role, hmem⟩)

end Loom.Template
