import Loom.Proofs.Tree.Blank
import Loom.Proofs.Weave.Slots

/-!
The slots that a document asks for.

Each construct of the markup with an embedded expression, pattern or name asks for one slot of its
node to be filled with that part of the source. The nodes are numbered in the order of the document,
those of the attributes of an element before the element and those of its content after it. This
says nothing of wrappers and of the text that is woven, so it can be held against what weaving does.
-/

open List

namespace Loom

variable {id : NodeId} {kind : Kind} {r : Range} {field : SlotField}

/-- A slot that a document asks for: its node, by number, blank and range, and the part of the
source for it. -/
structure Embedded where
  owner : NodeId
  kind : Kind
  node : Range
  field : SlotField
  source : Range

namespace Embedded

/-- The part without the description of its node. -/
def pending (e : Embedded) : Pending := ⟨e.owner, e.field, e.source⟩

/-- The slot of a part that may be missing. -/
def option (owner : NodeId) (kind : Kind) (node : Range) (field : SlotField)
    (source : Option Range) : List Embedded :=
  source.toList.map (⟨owner, kind, node, field, ·⟩)

end Embedded

namespace Template

/-! Attributes. -/

def AttributeValue.embedded (n : NodeId) : AttributeValue → List Embedded
  | .text .. => []
  | .mustache r e => [⟨n, .markupMustacheTag false none, r, .expression, e⟩]

def AttributeValue.embeddedList (n : NodeId) : List AttributeValue → List Embedded
  | [] => []
  | v :: vs => v.embedded n ++ AttributeValue.embeddedList (n + 1) vs

/-- A directive asks for its name where that is a reference, and for its expression. -/
def Directive.embedded (n : NodeId) (d : Directive) : List Embedded :=
  let kind : Kind := .markupDirective d.kind d.name d.modifiers none none
  Embedded.option n kind d.range .nameExpression (if d.kind.nameIsReference then d.nameRange
    else none)
    ++ Embedded.option n kind d.range .expression d.effectiveExpression

/-- The number of nodes of an attribute: its own and those of the parts of its value. -/
def Attribute.count : Attribute → Nat
  | .plain _ _ value => value.length + 1
  | .shorthand .. | .spread .. | .directive _ => 1

def Attribute.countList : List Attribute → Nat
  | [] => 0
  | x :: xs => x.count + Attribute.countList xs

def Attribute.embedded (n : NodeId) : Attribute → List Embedded
  | .plain _ _ value => AttributeValue.embeddedList n value
  | .shorthand r name e => [⟨n, .markupShorthandAttribute name none, r, .expression, e⟩]
  | .spread r e => [⟨n, .markupSpreadAttribute none, r, .expression, e⟩]
  | .directive d => d.embedded n

def Attribute.embeddedList (n : NodeId) : List Attribute → List Embedded
  | [] => []
  | x :: xs => x.embedded n ++ Attribute.embeddedList (n + x.count) xs

/-! Markup. -/

mutual

/-- The number of nodes of a construct and of all that is in it. -/
def Markup.count : Markup → Nat
  | .element _ _ _ _ attributes children =>
    Attribute.countList attributes + 1 + Markup.countList children
  | .text .. | .mustache .. | .constTag .. | .renderTag .. => 1
  | .ifBlock _ _ _ children elseBranch | .eachBlock _ _ _ _ _ children elseBranch =>
    1 + Markup.countList children + Branch.count elseBranch
  | .awaitBlock _ _ pending fulfilled rejected =>
    1 + Branch.count pending + AwaitBranch.count fulfilled + AwaitBranch.count rejected
  | .keyBlock _ _ children | .snippetBlock _ _ _ children => 1 + Markup.countList children

def Markup.countList : List Markup → Nat
  | [] => 0
  | m :: ms => m.count + Markup.countList ms

def Branch.count : Option Branch → Nat
  | none => 0
  | some (.mk _ children) => 1 + Markup.countList children

def AwaitBranch.count : Option AwaitBranch → Nat
  | none => 0
  | some (.mk _ _ children) => 1 + Markup.countList children

end

mutual

/-- The slots of a construct whose first node has the number `n`. -/
def Markup.embedded (n : NodeId) : Markup → List Embedded
  | .element name kind r nameRange attributes children =>
    let id := n + Attribute.countList attributes
    Attribute.embeddedList n attributes ++ Embedded.option id (.markupElement name kind none [] [])
      r .nameExpression
          (if kind = .component then nameRange else none)
      ++ Markup.embeddedList (id + 1) children
  | .text .. => []
  | .mustache r e raw => [⟨n, .markupMustacheTag raw none, r, .expression, e⟩]
  | .ifBlock r test elseIf children elseBranch =>
    ⟨n, .markupIfBlock elseIf none [] none, r, .expression, test⟩ ::
      (Markup.embeddedList (n + 1) children
        ++ Branch.embedded (n + 1 + Markup.countList children) elseBranch)
  | .eachBlock r e context index key children elseBranch =>
    let kind : Kind := .markupEachBlock none none none none [] none
    ⟨n, kind, r, .expression, e⟩ :: (Embedded.option n kind r .context context
        ++ Embedded.option n kind r .index index ++ Embedded.option n kind r .key key)
      ++ (Markup.embeddedList (n + 1) children ++ Branch.embedded (n + 1 + Markup.countList children) elseBranch)
  | .awaitBlock r e pending fulfilled rejected =>
    let next := n + 1 + Branch.count pending
    ⟨n, .markupAwaitBlock none none none none, r, .expression, e⟩ ::
      (Branch.embedded (n + 1) pending
        ++ AwaitBranch.embedded next (.markupAwaitThenBlock none []) .value fulfilled
        ++ AwaitBranch.embedded (next + AwaitBranch.count fulfilled)
        (.markupAwaitCatchBlock none []) .error rejected)
  | .keyBlock r e children =>
    ⟨n, .markupKeyBlock none [], r, .expression, e⟩ :: Markup.embeddedList (n + 1) children
  | .snippetBlock r name params children =>
    let kind : Kind := .markupSnippetBlock none [] []
    ⟨n, kind, r, .id, name⟩ :: params.map (⟨n, kind, r, .param, ·⟩) ++
      Markup.embeddedList (n + 1) children
  | .constTag r declaration => [⟨n, .markupConstTag none, r, .declaration, declaration⟩]
  | .renderTag r e => [⟨n, .markupRenderTag none, r, .expression, e⟩]

def Markup.embeddedList (n : NodeId) : List Markup → List Embedded
  | [] => []
  | m :: ms => m.embedded n ++ Markup.embeddedList (n + m.count) ms

def Branch.embedded (n : NodeId) : Option Branch → List Embedded
  | none => []
  | some (.mk _ children) => Markup.embeddedList (n + 1) children

/-- The slots of a branch that may bind a value. -/
def AwaitBranch.embedded (n : NodeId) (kind : Kind) (field : SlotField) :
    Option AwaitBranch → List Embedded
  | none => []
  | some (.mk r binding children) =>
    Embedded.option n kind r field binding ++ Markup.embeddedList (n + 1) children

end

/-- The slots that a document asks for, with its nodes numbered from `n`. -/
def Document.embedded (n : NodeId) (d : Document) : List Embedded := Markup.embeddedList n d.nodes

end Template

/-! Each slot is asked for once, and the node of the slot has it. -/

/-- Slots of nodes with numbers from `n` up to `n'`. -/
structure Numbered (n n' : Nat) (es : List Embedded) : Prop where
  le : n ≤ n'
  owner : ∀ e ∈ es, n ≤ e.owner ∧ e.owner < n'
  once : es.Pairwise fun e e' => e.pending.slot = e'.pending.slot → e.field = .param
  accepts : ∀ e ∈ es, e.kind.Accepts e.field

namespace Numbered

variable {n m n' : Nat} {es es' : List Embedded}

theorem nil (h : n ≤ n') : Numbered n n' [] := by
  constructor <;> simp [h]

/-- Slots of earlier and of later nodes. -/
theorem append (h : Numbered n m es) (h' : Numbered m n' es') : Numbered n n' (es ++ es') := by
  refine ⟨Nat.le_trans h.le h'.le, fun e he => ?_, ?_, fun e he => ?_⟩
  · rcases mem_append.mp he with he | he
    · obtain ⟨hle, hlt⟩ := h.owner e he
      exact ⟨hle, Nat.lt_of_lt_of_le hlt h'.le⟩
    · obtain ⟨hle, hlt⟩ := h'.owner e he
      exact ⟨Nat.le_trans h.le hle, hlt⟩
  · refine pairwise_append.mpr ⟨h.once, h'.once, fun e he e' he' heq => ?_⟩
    have hsame : e.owner = e'.owner := congrArg Prod.fst heq
    exact absurd (h.owner e he).2 (Nat.not_lt_of_le (hsame ▸ (h'.owner e' he').1))
  · exact (mem_append.mp he).elim (h.accepts e) (h'.accepts e)

/-- The slots of one node for different fields. -/
theorem node (id : NodeId) (kind : Kind) (r : Range) (parts : List (SlotField × Option Range))
    (hfields : (parts.map Prod.fst).Nodup) (haccepts : ∀ x ∈ parts, kind.Accepts x.1) :
    Numbered id (id + 1) (parts.flatMap fun x => Embedded.option id kind r x.1 x.2) := by
  have hmem : ∀ (parts : List (SlotField × Option Range)) (e : Embedded),
      e ∈ (parts.flatMap fun x => Embedded.option id kind r x.1 x.2) →
        e.owner = id ∧ e.kind = kind ∧ ∃ x ∈ parts, x.1 = e.field := by
    intro parts e he
    obtain ⟨x, hx, he⟩ := mem_flatMap.mp he
    obtain ⟨source, -, rfl⟩ := mem_map.mp he
    exact ⟨rfl, rfl, x, hx, rfl⟩
  refine ⟨Nat.le_succ id, fun e he => ?_, ?_, fun e he => ?_⟩
  · rw [(hmem parts e he).1]
    exact ⟨Nat.le_refl _, Nat.lt_succ_self _⟩
  · clear haccepts
    induction parts with
    | nil => exact .nil
    | cons x parts ih =>
      rw [map_cons, nodup_cons] at hfields
      refine pairwise_append.mpr ⟨?_, ih hfields.2, fun e he e' he' heq => ?_⟩
      · obtain ⟨field, source⟩ := x
        cases source with
        | none => exact .nil
        | some source => exact pairwise_singleton ..
      · obtain ⟨source, -, rfl⟩ := mem_map.mp he
        obtain ⟨-, -, y, hy, hfield⟩ := hmem parts e' he'
        have hsame : x.1 = e'.field := congrArg Prod.snd heq
        exact absurd (hsame.trans hfield.symm ▸ mem_map_of_mem hy) hfields.1
  · obtain ⟨-, hkind, x, hx, hfield⟩ := hmem parts e he
    rw [hkind, ← hfield]
    exact haccepts x hx

/-- One slot of a node. -/
theorem option (source : Option Range) (haccepts : kind.Accepts field) :
    Numbered id (id + 1) (Embedded.option id kind r field source) := by
  have hnode := node id kind r [(field, source)] (by simp) (by simpa using haccepts)
  simpa using hnode

theorem single (source : Range) (haccepts : kind.Accepts field) :
    Numbered id (id + 1) [⟨id, kind, r, field, source⟩] :=
  option (some source) haccepts

/-- The parameters of a snippet share a slot. -/
theorem snippet (name : Range) (params : List Range) :
    Numbered id (id + 1) (⟨id, .markupSnippetBlock none [] [], r, .id, name⟩
      :: params.map (⟨id, .markupSnippetBlock none [] [], r, .param, ·⟩)) := by
  refine ⟨Nat.le_succ id, ?_, ?_, ?_⟩
  · simp only [forall_mem_cons, forall_mem_map]
    exact ⟨⟨Nat.le_refl _, Nat.lt_succ_self _⟩, fun _ _ => ⟨Nat.le_refl _, Nat.lt_succ_self _⟩⟩
  · refine pairwise_cons.mpr ⟨fun e he heq => ?_, pairwise_map.mpr ?_⟩
    · obtain ⟨p, -, rfl⟩ := mem_map.mp he
      cases heq
    · exact pairwise_of_forall fun _ _ _ => rfl
  · simp only [forall_mem_cons, forall_mem_map]
    exact ⟨fun _ => rfl, fun _ _ _ => rfl⟩

end Numbered

namespace Template

theorem AttributeValue.numbered (n : Nat) (v : AttributeValue) :
    Numbered n (n + 1) (v.embedded n) := by
  cases v with
  | text r value => exact .nil (Nat.le_succ n)
  | mustache r e => exact .single e fun _ => rfl

theorem AttributeValue.numberedList (n : Nat) (vs : List AttributeValue) :
    Numbered n (n + vs.length) (AttributeValue.embeddedList n vs) := by
  induction vs generalizing n with
  | nil => exact .nil (Nat.le_refl n)
  | cons v vs ih =>
    have hrest := (v.numbered n).append (ih (n + 1))
    rwa [Nat.add_right_comm] at hrest

theorem Attribute.numbered (n : Nat) (x : Attribute) : Numbered n (n + x.count) (x.embedded n) := by
  cases x with
  | plain r name value =>
    have hvalue := (AttributeValue.numberedList n value).append (.nil (Nat.le_succ _))
    rwa [append_nil] at hvalue
  | shorthand r name e => exact .single e fun _ => rfl
  | spread r e => exact .single e fun _ => rfl
  | directive d =>
    have hnode := Numbered.node n (.markupDirective d.kind d.name d.modifiers none none) d.range
      [(.nameExpression, if d.kind.nameIsReference then d.nameRange else none),
        (.expression, d.effectiveExpression)] (by simp)
      (forall_mem_cons.mpr ⟨fun _ => rfl, forall_mem_singleton.mpr fun _ => rfl⟩)
    simp only [flatMap_cons, flatMap_nil, append_nil] at hnode
    exact hnode

theorem Attribute.numberedList (n : Nat) (xs : List Attribute) :
    Numbered n (n + Attribute.countList xs) (Attribute.embeddedList n xs) := by
  induction xs generalizing n with
  | nil => exact .nil (Nat.le_refl n)
  | cons x xs ih =>
    have hrest := (x.numbered n).append (ih (n + x.count))
    rwa [Nat.add_assoc] at hrest

mutual

theorem Markup.numbered (n : Nat) : (m : Markup) → Numbered n (n + m.count) (m.embedded n)
  | .element name kind r nameRange attributes children => by
    have hname : Numbered (n + Attribute.countList attributes) _
        (Embedded.option _ (.markupElement name kind none [] []) r .nameExpression
          (if kind = .component then nameRange else none)) := .option _ fun _ => rfl
    have hall :=
      ((Attribute.numberedList n attributes).append hname).append (Markup.numberedList _ children)
    rw [Markup.embedded, Markup.count, ← Nat.add_assoc, ← Nat.add_assoc]
    exact hall
  | .text r value => by
    rw [Markup.embedded]
    exact .nil (Nat.le_add_right ..)
  | .mustache r e raw => by
    rw [Markup.embedded, Markup.count]
    exact .single e fun _ => rfl
  | .ifBlock r test elseIf children elseBranch => by
    have hown : Numbered n (n + 1) [⟨n, .markupIfBlock elseIf none [] none, r, .expression, test⟩] :=
      .single test fun _ => rfl
    have hall :=
      hown.append ((Markup.numberedList (n + 1) children).append (Branch.numbered _ elseBranch))
    rw [Markup.embedded, Markup.count, ← Nat.add_assoc, ← Nat.add_assoc]
    exact hall
  | .eachBlock r e context index key children elseBranch => by
    have hown := Numbered.node n (.markupEachBlock none none none none [] none) r
      [(.expression, some e), (.context, context), (.index, index), (.key, key)] (by simp) (by
        simp only [forall_mem_cons]
        exact ⟨fun _ => rfl, fun _ => rfl, fun _ => rfl, fun _ => rfl, nofun⟩)
    have hall :=
      hown.append ((Markup.numberedList (n + 1) children).append (Branch.numbered _ elseBranch))
    rw [Markup.embedded, Markup.count, ← Nat.add_assoc, ← Nat.add_assoc]
    simpa [Embedded.option] using hall
  | .awaitBlock r e pending fulfilled rejected => by
    have hown : Numbered n (n + 1) [⟨n, .markupAwaitBlock none none none none, r, .expression, e⟩] :=
      .single e fun _ => rfl
    have hall := hown.append (((Branch.numbered (n + 1) pending).append
      (AwaitBranch.numbered _ (.markupAwaitThenBlock none []) .value (fun _ => rfl) fulfilled)).append
      (AwaitBranch.numbered _ (.markupAwaitCatchBlock none []) .error (fun _ => rfl) rejected))
    rw [Markup.embedded, Markup.count, ← Nat.add_assoc, ← Nat.add_assoc, ← Nat.add_assoc]
    exact hall
  | .keyBlock r e children => by
    have hown : Numbered n (n + 1) [⟨n, .markupKeyBlock none [], r, .expression, e⟩] :=
      .single e fun _ => rfl
    rw [Markup.embedded, Markup.count, ← Nat.add_assoc]
    exact hown.append (Markup.numberedList (n + 1) children)
  | .snippetBlock r name params children => by
    rw [Markup.embedded, Markup.count, ← Nat.add_assoc]
    exact (Numbered.snippet name params).append (Markup.numberedList (n + 1) children)
  | .constTag r declaration => by
    rw [Markup.embedded, Markup.count]
    exact .single declaration fun _ => rfl
  | .renderTag r e => by
    rw [Markup.embedded, Markup.count]
    exact .single e fun _ => rfl

theorem Markup.numberedList (n : Nat) : (ms : List Markup) →
    Numbered n (n + Markup.countList ms) (Markup.embeddedList n ms)
  | [] => by
    rw [Markup.embeddedList]
    exact .nil (Nat.le_add_right ..)
  | m :: ms => by
    rw [Markup.embeddedList, Markup.countList, ← Nat.add_assoc]
    exact (Markup.numbered n m).append (Markup.numberedList _ ms)

theorem Branch.numbered (n : Nat) :
    (b : Option Branch) → Numbered n (n + Branch.count b) (Branch.embedded n b)
  | none => by
    rw [Branch.embedded]
    exact .nil (Nat.le_add_right ..)
  | some (.mk r children) => by
    rw [Branch.embedded, Branch.count, ← Nat.add_assoc]
    exact (Numbered.nil (Nat.le_succ n)).append (Markup.numberedList (n + 1) children)

theorem AwaitBranch.numbered (n : Nat) (kind : Kind) (field : SlotField)
    (haccepts : kind.Accepts field) :
    (b : Option AwaitBranch) → Numbered n (n + AwaitBranch.count b)
      (AwaitBranch.embedded n kind field b)
  | none => by
    rw [AwaitBranch.embedded]
    exact .nil (Nat.le_add_right ..)
  | some (.mk r binding children) => by
    rw [AwaitBranch.embedded, AwaitBranch.count, ← Nat.add_assoc]
    exact (Numbered.option binding haccepts).append (Markup.numberedList (n + 1) children)

end

end Template

end Loom
