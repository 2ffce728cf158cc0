import Loom.Proofs.Json.Record
import Loom.Proofs.Template.Ranges
import Loom.Template.Decode
import Loom.Template.Encode

/-!
Documents are read back from the text that they are written as.

A construct is read after the constructs inside it, which are nested less deeply, so the induction
is on the fuel of the reader, and the nesting of the written value bounds it.
-/

open List

namespace Loom

open Json

variable {d : Document} {m : Markup} {fuel : Nat}

open Json (required defaulted optional list Plain Returns)

/-- Both ends of a range are machine words. -/
def Range.IsWord (r : Range) : Prop := r.start < wordModulus ∧ r.stop < wordModulus

instance (r : Range) : Decidable r.IsWord := inferInstanceAs (Decidable (_ ∧ _))

/-- A range is read back from the value that it is written as. -/
def Range.Returned (r : Range) : Prop := Returns Range.ofJson? r.toJson r

theorem Range.IsWord.returned {r : Range} (h : r.IsWord) : r.Returned := by
  refine .record rfl (by simp) (by simp [Plain.nat h.1, Plain.nat h.2]) fun hfields => ?_
  dsimp only [map] at hfields
  simp [Range.ofJson?, hfields, required, offset?, natBelow?_ofNat h.1, natBelow?_ofNat h.2]

theorem Range.returns_option {x : Option Range} (h : ∀ r ∈ x, r.Returned) :
    Returns (fun j => optional Range.ofJson? (some j)) (.ofOption Range.toJson x) x :=
  .ofOption h fun _ => by simp [Range.toJson]

namespace Template

/-! Scripts and attributes. -/

theorem ScriptBlock.returns {s : ScriptBlock} (h : s.content.Returned) :
    Returns ScriptBlock.ofJson? s.toJson s := by
  have hlang : Returns (fun j => optional string? (some j)) (.ofOption .string s.lang) s.lang :=
    .ofOption (fun a _ => ⟨.string a, rfl⟩) fun _ => by simp
  refine .record rfl (by simp) (by simp [h.plain, Plain.bool, hlang.plain]) fun hfields => ?_
  dsimp only [map] at hfields
  simp [ScriptBlock.ofJson?, hfields, required, defaulted, h.back, bool?, hlang.back]

theorem AttributeValue.returns {v : AttributeValue} (h : ∀ r ∈ v.ranges, r.Returned) :
    Returns AttributeValue.ofJson? v.toJson v := by
  cases v with
  | text r value =>
    have hr := h r (by simp [ranges])
    refine .tagged ["text", "mustache"] 0 rfl (by decide) (by simp)
      (by simp [hr.plain, Plain.string]) fun j hfields htag => ?_
    dsimp only [map] at hfields
    simp [ofJson?, htag, hfields, required, hr.back, string?]
  | mustache r e =>
    have hr := h r (by simp [ranges])
    have he := h e (by simp [ranges])
    refine .tagged ["text", "mustache"] 1 rfl (by decide) (by simp) (by simp [hr.plain, he.plain])
      fun j hfields htag => ?_
    dsimp only [map] at hfields
    simp [ofJson?, htag, hfields, required, hr.back, he.back]

theorem DirectiveKind.oneOf_keyword (k : DirectiveKind) :
    oneOf .buffered DirectiveKind.all DirectiveKind.keyword (.string k.keyword) = some k := by
  cases k <;> decide

theorem ElementKind.oneOf_name (k : ElementKind) :
    oneOf .buffered ElementKind.all ElementKind.name (.string k.name) = some k := by
  cases k <;> decide

theorem Attribute.returns {a : Attribute} (h : ∀ r ∈ a.ranges, r.Returned) :
    Returns Attribute.ofJson? a.toJson a := by
  cases a with
  | plain r name value =>
    have hr := h r (by simp [ranges])
    have hvalue : Returns (list AttributeValue.ofJson?) (.ofList AttributeValue.toJson value) value := by
      refine .ofList fun v hv => AttributeValue.returns fun r' hr' => h r' ?_
      simp only [ranges, mem_cons, mem_flatMap]
      exact .inr ⟨v, hv, hr'⟩
    refine .tagged ["attribute", "shorthand", "spread", "directive"] 0 rfl (by decide) (by simp)
      (by simp [hr.plain, Plain.string, hvalue.plain]) fun j hfields htag => ?_
    dsimp only [map] at hfields
    simp [ofJson?, htag, hfields, required, defaulted, hr.back, string?, hvalue.back]
  | shorthand r name e =>
    have hr := h r (by simp [ranges])
    have he := h e (by simp [ranges])
    refine .tagged ["attribute", "shorthand", "spread", "directive"] 1 rfl (by decide) (by simp)
      (by simp [hr.plain, Plain.string, he.plain]) fun j hfields htag => ?_
    dsimp only [map] at hfields
    simp [ofJson?, htag, hfields, required, hr.back, he.back, string?]
  | spread r e =>
    have hr := h r (by simp [ranges])
    have he := h e (by simp [ranges])
    refine .tagged ["attribute", "shorthand", "spread", "directive"] 2 rfl (by decide) (by simp)
      (by simp [hr.plain, he.plain]) fun j hfields htag => ?_
    dsimp only [map] at hfields
    simp [ofJson?, htag, hfields, required, hr.back, he.back]
  | directive d =>
    have hr := h d.range (by simp [ranges])
    have hname := Range.returns_option (x := d.nameRange) fun r hr => h r (by simp_all [ranges])
    have he := Range.returns_option (x := d.expression) fun r hr => h r (by simp_all [ranges])
    have hmodifiers : Returns (list string?) (.ofList .string d.modifiers) d.modifiers :=
      .ofList fun s _ => ⟨.string s, rfl⟩
    refine .tagged ["attribute", "shorthand", "spread", "directive"] 3 rfl (by decide) (by simp)
      (by simp [hr.plain, Plain.string, hname.plain, hmodifiers.plain, he.plain]) fun j hfields htag => ?_
    dsimp only [map] at hfields
    simp [ofJson?, htag, Directive.ofJson?, hfields, required, defaulted, hr.back, hname.back,
      he.back, hmodifiers.back, string?, DirectiveKind.oneOf_keyword]

/-! Markup. -/

theorem Markup.listToJson_eq_map (ms : List Markup) :
    Markup.listToJson ms = ms.map Markup.toJson := by
  induction ms with
  | nil => rfl
  | cons m ms ih => rw [Markup.listToJson, ih, map_cons]

/-- A construct is read back from the value that it is written as. -/
def Markup.Returned (fuel : Nat) (m : Markup) : Prop :=
  ∀ place, Returns (Markup.ofJson? fuel place) m.toJson m

/-- The constructs inside another one are read back. -/
def Markup.ListReturned (fuel : Nat) (ms : List Markup) : Prop :=
  Returns (list (Markup.ofJson? fuel .buffered)) (.array (Markup.listToJson ms)) ms

def Branch.Returned (fuel : Nat) (b : Option Branch) : Prop :=
  Returns (fun j => optional (Branch.ofJson? (list (Markup.ofJson? fuel .buffered))) (some j))
    (Branch.optionToJson b) b

def AwaitBranch.Returned (fuel : Nat) (b : Option AwaitBranch) : Prop :=
  Returns (fun j => optional (AwaitBranch.ofJson? (list (Markup.ofJson? fuel .buffered))) (some j))
    (AwaitBranch.optionToJson b) b

theorem Branch.returned {b : Option Branch} (hrange : ∀ x ∈ b, x.range.Returned)
    (hkids : ∀ x ∈ b, Markup.ListReturned fuel x.children) : Branch.Returned fuel b := by
  cases b with
  | none => exact ⟨.null, rfl⟩
  | some b =>
    obtain ⟨r, cs⟩ := b
    have hr : r.Returned := hrange _ rfl
    have hcs : Markup.ListReturned fuel cs := hkids _ rfl
    refine .optional (.record rfl (by simp) (by simp [hr.plain, hcs.plain]) fun hfields => ?_)
      (by simp [Branch.optionToJson])
    dsimp only [map] at hfields
    simp [Branch.ofJson?, hfields, required, defaulted, hr.back, hcs.back]

theorem AwaitBranch.returned {b : Option AwaitBranch}
    (hranges : ∀ x ∈ b, ∀ r ∈ x.ranges, r.Returned)
    (hkids : ∀ x ∈ b, Markup.ListReturned fuel x.children) : AwaitBranch.Returned fuel b := by
  cases b with
  | none => exact ⟨.null, rfl⟩
  | some b =>
    obtain ⟨r, binding, cs⟩ := b
    have hr : r.Returned := hranges _ rfl r (by simp [AwaitBranch.ranges, AwaitBranch.range])
    have hbinding := Range.returns_option (x := binding) fun r' hr' =>
      hranges _ rfl r' (by simp_all [AwaitBranch.ranges, AwaitBranch.binding])
    have hcs : Markup.ListReturned fuel cs := hkids _ rfl
    refine .optional
      (.record rfl (by simp) (by simp [hr.plain, hbinding.plain, hcs.plain]) fun hfields => ?_)
      (by simp [AwaitBranch.optionToJson])
    dsimp only [map] at hfields
    simp [AwaitBranch.ofJson?, hfields, required, defaulted, hr.back, hbinding.back, hcs.back]

namespace Markup

/-- A construct is read from its fields, once its tag is taken off. -/
theorem returned_of_fields {tag : String} {members : List (String × Json)} (i : Nat)
    (hjson : m.toJson = .object (("type", .string tag) :: members))
    (htag : tags.findIdx? (· == tag) = some i)
    (hnames : ("type" :: members.map Prod.fst).Nodup) (hplain : ∀ x ∈ members, x.2.Plain)
    (hread : ∀ j : Json, j.fields? (members.map Prod.fst) = some (members.map fun x => some x.2) →
      ofFields? (list (ofJson? fuel .buffered)) i j = some m) : m.Returned (fuel + 1) := by
  refine fun place => .tagged tags i hjson htag hnames hplain fun j hfields htagged => ?_
  rw [ofJson?, htagged]
  exact hread j hfields

/-! The constructs, one by one. -/

section Constructs

variable {r e : Range} {children : List Markup} {elseBranch : Option Branch} (hr : r.Returned)

include hr

theorem returned_text (value : String) : Returned (fuel + 1) (.text r value) := by
  refine returned_of_fields 1 rfl (by decide) (by simp) (by simp [hr.plain, Plain.string])
    fun j hfields => ?_
  dsimp only [map] at hfields
  simp [ofFields?, hfields, required, defaulted, string?, hr.back]

variable (he : e.Returned)

include he

theorem returned_mustache (raw : Bool) : Returned (fuel + 1) (.mustache r e raw) := by
  refine returned_of_fields 2 rfl (by decide) (by simp) (by simp [hr.plain, he.plain, Plain.bool])
    fun j hfields => ?_
  dsimp only [map] at hfields
  simp [ofFields?, hfields, required, defaulted, bool?, hr.back, he.back]

theorem returned_awaitBlock {pending : Option Branch} {fulfilled rejected : Option AwaitBranch}
    (hpend : Branch.Returned fuel pending) (hfulfilled : AwaitBranch.Returned fuel fulfilled)
    (hrejected : AwaitBranch.Returned fuel rejected) :
    Returned (fuel + 1) (.awaitBlock r e pending fulfilled rejected) := by
  refine returned_of_fields 5 rfl (by decide) (by simp)
    (by simp [hr.plain, he.plain, hpend.plain, hfulfilled.plain, hrejected.plain])
      fun j hfields => ?_
  dsimp only [map] at hfields
  simp [ofFields?, hfields, required, hr.back, he.back, hpend.back, hfulfilled.back,
    hrejected.back]

theorem returned_constTag : Returned (fuel + 1) (.constTag r e) := by
  refine returned_of_fields 8 rfl (by decide) (by simp) (by simp [hr.plain, he.plain])
    fun j hfields => ?_
  dsimp only [map] at hfields
  simp [ofFields?, hfields, required, hr.back, he.back]

theorem returned_renderTag : Returned (fuel + 1) (.renderTag r e) := by
  refine returned_of_fields 9 rfl (by decide) (by simp) (by simp [hr.plain, he.plain])
    fun j hfields => ?_
  dsimp only [map] at hfields
  simp [ofFields?, hfields, required, hr.back, he.back]

variable (hkids : ListReturned fuel children)

include hkids

theorem returned_ifBlock (helse : Branch.Returned fuel elseBranch) (elseIf : Bool) :
    Returned (fuel + 1) (.ifBlock r e elseIf children elseBranch) := by
  refine returned_of_fields 3 rfl (by decide) (by simp)
    (by simp [hr.plain, he.plain, Plain.bool, hkids.plain, helse.plain]) fun j hfields => ?_
  dsimp only [map] at hfields
  simp [ofFields?, hfields, required, defaulted, bool?, hr.back, he.back, hkids.back, helse.back]

theorem returned_eachBlock {context index key : Option Range} (hctx : ∀ r ∈ context, r.Returned)
    (hindex : ∀ r ∈ index, r.Returned) (hkey : ∀ r ∈ key, r.Returned)
    (helse : Branch.Returned fuel elseBranch) :
    Returned (fuel + 1) (.eachBlock r e context index key children elseBranch) := by
  have hctx := Range.returns_option hctx
  have hindex := Range.returns_option hindex
  have hkey := Range.returns_option hkey
  refine returned_of_fields 4 rfl (by decide) (by simp)
    (by simp [hr.plain, he.plain, hctx.plain, hindex.plain, hkey.plain, hkids.plain, helse.plain])
    fun j hfields => ?_
  dsimp only [map] at hfields
  simp [ofFields?, hfields, required, defaulted, hr.back, he.back, hctx.back, hindex.back,
    hkey.back, hkids.back, helse.back]

theorem returned_keyBlock : Returned (fuel + 1) (.keyBlock r e children) := by
  refine returned_of_fields 6 rfl (by decide) (by simp)
    (by simp [hr.plain, he.plain, hkids.plain]) fun j hfields => ?_
  dsimp only [map] at hfields
  simp [ofFields?, hfields, required, defaulted, hr.back, he.back, hkids.back]

theorem returned_snippetBlock {params : List Range} (hparams : ∀ p ∈ params, p.Returned) :
    Returned (fuel + 1) (.snippetBlock r e params children) := by
  have hparams : Returns (list Range.ofJson?) (.ofList Range.toJson params) params :=
    .ofList hparams
  refine returned_of_fields 7 rfl (by decide) (by simp)
    (by simp [hr.plain, he.plain, hparams.plain, hkids.plain]) fun j hfields => ?_
  dsimp only [map] at hfields
  simp [ofFields?, hfields, required, defaulted, hr.back, he.back, hparams.back, hkids.back]

omit he in
theorem returned_element {nameRange : Option Range} {attributes : List Attribute}
    (hname : ∀ r ∈ nameRange, r.Returned) (hattrs : ∀ a ∈ attributes, ∀ r ∈ a.ranges, r.Returned)
    (name : String) (kind : ElementKind) :
    Returned (fuel + 1) (.element name kind r nameRange attributes children) := by
  have hname := Range.returns_option hname
  have hattrs : Returns (list Attribute.ofJson?) (.ofList Attribute.toJson attributes) attributes :=
    .ofList fun a ha => Attribute.returns (hattrs a ha)
  refine returned_of_fields 0 rfl (by decide) (by simp)
    (by simp [Plain.string, hr.plain, hname.plain, hattrs.plain, hkids.plain]) fun j hfields => ?_
  dsimp only [map] at hfields
  simp [ofFields?, hfields, required, defaulted, string?, ElementKind.oneOf_name, hr.back,
    hname.back, hattrs.back, hkids.back]

end Constructs

/-- A construct is read back when those directly inside it are. -/
theorem returned_succ (hranges : ∀ r ∈ m.ranges, r.Returned)
    (hinner : ∀ c ∈ m.inner, c.Returned fuel) : m.Returned (fuel + 1) := by
  have hlist : ∀ cs : List Markup, (∀ c ∈ cs, c ∈ m.inner) → ListReturned fuel cs := by
    intro cs hcs
    rw [ListReturned, listToJson_eq_map]
    exact .ofList fun c hc => hinner c (hcs c hc) _
  have hbranch : ∀ b : Option Branch,
      (∀ x ∈ b, x.range ∈ m.ranges ∧ ∀ c ∈ x.children, c ∈ m.inner) →
      Branch.Returned fuel b := fun b hb =>
    Branch.returned (fun x hx => hranges _ (hb x hx).1) fun x hx => hlist _ (hb x hx).2
  have hawait : ∀ b : Option AwaitBranch,
      (∀ x ∈ b, (∀ r ∈ x.ranges, r ∈ m.ranges) ∧ ∀ c ∈ x.children, c ∈ m.inner) →
      AwaitBranch.Returned fuel b := fun b hb =>
    AwaitBranch.returned (fun x hx r hr => hranges r ((hb x hx).1 r hr)) fun x hx => hlist _ (hb x hx).2
  cases m with
  | text r value => exact returned_text (hranges r (by simp [ranges])) value
  | mustache r e raw => exact returned_mustache (hranges r (by simp [ranges])) (hranges e (by simp [ranges])) raw
  | constTag r e => exact returned_constTag (hranges r (by simp [ranges])) (hranges e (by simp [ranges]))
  | renderTag r e => exact returned_renderTag (hranges r (by simp [ranges])) (hranges e (by simp [ranges]))
  | element name kind r nameRange attributes children =>
    refine returned_element (hranges r (by simp [ranges])) (hlist children fun c hc => hc)
      (fun r hr => hranges r (by simp_all [ranges])) (fun a ha r' hr' => hranges r' ?_) name kind
    simp only [ranges, mem_cons, mem_append, mem_flatMap]
    exact .inr (.inr ⟨a, ha, hr'⟩)
  | ifBlock r e elseIf children elseBranch =>
    exact returned_ifBlock (hranges r (by simp [ranges])) (hranges e (by simp [ranges]))
      (hlist children fun c hc => mem_append_left _ hc)
        (hbranch elseBranch (by simp +contextual [ranges, inner])) elseIf
  | eachBlock r e context index key children elseBranch =>
    exact returned_eachBlock (hranges r (by simp [ranges])) (hranges e (by simp [ranges]))
      (hlist children fun c hc => mem_append_left _ hc) (fun r hr => hranges r (by simp_all [ranges]))
      (fun r hr => hranges r (by simp_all [ranges])) (fun r hr => hranges r (by simp_all [ranges]))
      (hbranch elseBranch (by simp +contextual [ranges, inner]))
  | awaitBlock r e pending fulfilled rejected =>
    exact returned_awaitBlock (hranges r (by simp [ranges])) (hranges e (by simp [ranges]))
      (hbranch pending (by simp +contextual [ranges, inner]))
        (hawait fulfilled (by simp +contextual [ranges, inner]))
      (hawait rejected (by simp +contextual [ranges, inner]))
  | keyBlock r e children =>
    exact returned_keyBlock (hranges r (by simp [ranges])) (hranges e (by simp [ranges]))
      (hlist children fun c hc => hc)
  | snippetBlock r name params children =>
    exact returned_snippetBlock (hranges r (by simp [ranges])) (hranges name (by simp [ranges]))
      (hlist children fun c hc => hc) fun p hp => hranges p (by simp [ranges, hp])

end Markup

/-- What is inside a construct is nested less deeply. -/
theorem Markup.depth_lt_of_mem_inner {c : Markup} (h : c ∈ m.inner) :
    c.toJson.depth < m.toJson.depth := by
  have hkids : ∀ {cs members}, c ∈ cs → ("children", array (Markup.listToJson cs)) ∈ members →
      c.toJson.depth < (object members).depth := by
    intro cs members hc hmember
    have hitem : c.toJson ∈ Markup.listToJson cs := by
      rw [Markup.listToJson_eq_map]
      exact mem_map_of_mem hc
    exact (depth_lt_array hitem).trans (depth_lt_object hmember)
  have hbranch : ∀ {b : Option Branch} {k members}, c ∈ b.toList.flatMap Branch.children →
      (k, Branch.optionToJson b) ∈ members → c.toJson.depth < (object members).depth := by
    rintro (_ | ⟨r, cs⟩) k members hc hmember
    · simp at hc
    · have hc : c ∈ cs := by simpa [Branch.children] using hc
      exact (hkids hc (by simp)).trans (depth_lt_object hmember)
  have hawait : ∀ {b : Option AwaitBranch} {k members}, c ∈ b.toList.flatMap AwaitBranch.children →
      (k, AwaitBranch.optionToJson b) ∈ members → c.toJson.depth < (object members).depth := by
    rintro (_ | ⟨r, binding, cs⟩) k members hc hmember
    · simp at hc
    · have hc : c ∈ cs := by simpa [AwaitBranch.children] using hc
      exact (hkids hc (by simp)).trans (depth_lt_object hmember)
  cases m with
  | text | mustache | constTag | renderTag => cases h
  | element | keyBlock | snippetBlock => exact hkids h (by simp [inner])
  | ifBlock | eachBlock =>
    rcases mem_append.mp h with h | h
    · exact hkids h (by simp)
    · exact hbranch (k := "elseBranch") h (by simp)
  | awaitBlock r e pending fulfilled rejected =>
    simp only [inner, flatMap_append, mem_append] at h
    rcases h with h | h | h
    · exact hbranch (k := "pending") h (by simp)
    · exact hawait (k := "then") h (by simp)
    · exact hawait (k := "catch") h (by simp)

/-- The fuel bounds the nesting, which is less in the constructs inside. -/
theorem Markup.returned (hdepth : m.toJson.depth ≤ fuel)
    (hwords : ∀ c : Markup, c.Within m → ∀ r ∈ c.ranges, r.IsWord) : m.Returned fuel := by
  induction fuel generalizing m with
  | zero => cases m <;> exact absurd hdepth (Nat.not_succ_le_zero _)
  | succ fuel ih =>
    refine returned_succ (fun r hr => (hwords m .refl r hr).returned) fun c hc => ih ?_
      fun c' hc' => ?_
    · have := depth_lt_of_mem_inner hc
      omega
    · exact hwords c' (.head hc hc')

/-! Documents. -/

/-- A node of the document is nested in the object of the document and in its list of nodes. -/
theorem Document.depth_node (hm : m ∈ d.nodes) : m.toJson.depth + 2 ≤ d.toJson.depth := by
  have hitem : m.toJson ∈ Markup.listToJson d.nodes := by
    rw [Markup.listToJson_eq_map]
    exact mem_map_of_mem hm
  have hlist := depth_lt_array hitem
  have hobject : (array (Markup.listToJson d.nodes)).depth < d.toJson.depth :=
    depth_lt_object (k := "nodes") (by simp)
  omega

theorem Document.returns (hdepth : d.toJson.depth ≤ nestingLimit)
    (hwords : ∀ r, d.Records r → r.IsWord) : Returns Document.ofJson? d.toJson d := by
  have hscripts : Returns (list ScriptBlock.ofJson?) (.ofList ScriptBlock.toJson d.scripts)
      d.scripts :=
    .ofList fun s hs => ScriptBlock.returns (hwords _ (.inl ⟨s, hs, rfl⟩)).returned
  have hnodes : Returns (list Markup.ofTopJson?) (.array (Markup.listToJson d.nodes)) d.nodes := by
    rw [Markup.listToJson_eq_map]
    refine .ofList fun m hm => ?_
    have hlt := Document.depth_node hm
    have hm : Returns (Markup.ofJson? nestingLimit .streamed) m.toJson m :=
      Markup.returned (by omega) (fun c hc r hr => hwords r (.inr ⟨m, hm, c, hc, hr⟩)) .streamed
    refine ⟨hm.plain, ?_⟩
    rw [Markup.ofTopJson?, if_pos (hm.plain.bufferable (by omega))]
    exact hm.back
  refine .record rfl (by simp) (by simp [hscripts.plain, hnodes.plain]) fun hfields => ?_
  dsimp only [map] at hfields
  simp [Document.ofJson?, hfields, defaulted, hscripts.back, hnodes.back]

/-- A document that is not nested too deeply is read back from its text. -/
theorem document_read_back {d : Document} (hdepth : d.toJson.depth ≤ nestingLimit)
    (hwords : ∀ r, d.Records r → r.IsWord) : Document.read? d.write = some d := by
  have hreturns := Document.returns hdepth hwords
  rw [Document.read?, Document.write, hreturns.plain.read?_write]
  exact hreturns.back

/-- A script and an element with a directive around a promise that is pending, then shown in a
list. -/
def Document.sample : Document where
  scripts := [⟨⟨8, 20⟩, true, some "ts"⟩]
  nodes := [ .element "p" .html ⟨29, 120⟩ (some ⟨30, 31⟩)
      [.directive ⟨⟨32, 50⟩, .on, "click", some ⟨35, 40⟩, ["once"], none⟩,
        .plain ⟨51, 55⟩ "id" [.text ⟨53, 55⟩ "a\"\n"]]
      [.awaitBlock ⟨56, 116⟩ ⟨64, 65⟩ (some (.mk ⟨66, 70⟩ [.text ⟨66, 70⟩ "…"]))
        (some (.mk ⟨70, 108⟩ (some ⟨76, 77⟩)
          [.eachBlock ⟨78, 108⟩ ⟨85, 86⟩ (some ⟨90, 91⟩) none none [.mustache ⟨92, 95⟩ ⟨93, 94⟩ false] none]))
        none]]

theorem document_read_back_sample :
    Document.sample.toJson.depth ≤ nestingLimit ∧ (∀ r, Document.sample.Records r → r.IsWord) ∧
      Document.read? Document.sample.write = some Document.sample := by
  have hdepth : Document.sample.toJson.depth ≤ nestingLimit := by decide
  have hwords : ∀ r, Document.sample.Records r → r.IsWord := by
    intro r hr
    obtain ⟨role, hlisted⟩ := listed_document.mpr hr
    have hall : ∀ x ∈ Document.sample.recordedRanges, x.2.IsWord := by decide
    exact hall _ hlisted
  exact ⟨hdepth, hwords, document_read_back hdepth hwords⟩

end Template

end Loom
