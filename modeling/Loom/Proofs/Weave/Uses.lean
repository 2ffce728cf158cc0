import Loom.Proofs.Draft.Provenance
import Loom.Proofs.Template.Ranges
import Loom.Proofs.Weave.Coverage

/-!
The ranges that weaving uses.

Weaving is put together from a few operations. Those that take a range copy or slice the source
there, place a node there, or anchor a task at its start. The recursion over the markup hands them
ranges of the document and no others.
-/

open List

namespace Loom

open Template Markup Draft

variable {ps : List Pending} {r : Range}

namespace Weaving

/-- The text of a range of the source. -/
def slice (r : Range) : Weaving String := do return (← get).coords.slice r

/-- A program of weaving operations that takes only ranges of which `P` holds, and whose result
satisfies the last argument. -/
inductive UsesOnly (P : Range → Prop) : {α : Type} → Weaving α → (α → Prop) → Prop
  | pure {α : Type} {x : α} {Q : α → Prop} (h : Q x) : UsesOnly P (Pure.pure x) Q
  | bind {α β : Type} {m : Weaving α} {f : α → Weaving β} {Q : α → Prop} {R : β → Prop}
      (h : UsesOnly P m Q) (hf : ∀ x, Q x → UsesOnly P (f x) R) : UsesOnly P (m >>= f) R
  | alloc {r : Range} (k : Kind) (h : P r) : UsesOnly P (alloc k r) fun _ => True
  | slice {r : Range} (h : P r) : UsesOnly P (slice r) fun _ => True
  | copy {r : Range} (h : P r) : UsesOnly P (copy r) fun _ => True
  | copyFragment {r : Range} (owner : NodeId) (field : SlotField) (h : P r) :
      UsesOnly P (copyFragment owner field r) fun f => f.source = r
  | pushTask {r : Range} {fragments : List Fragment} (start : Nat) (action : Action) (h : P r)
      (hf : ∀ f ∈ fragments, P f.source) :
      UsesOnly P (pushTask start r.start fragments action) fun _ => True
  | place (parent : Option NodeId) (id : NodeId) : UsesOnly P (place parent id) fun _ => True
  | link (owner : NodeId) (role : BranchRole) (branch : NodeId) :
      UsesOnly P (link owner role branch) fun _ => True
  | offset : UsesOnly P offset fun _ => True
  | synthetic (text : String) : UsesOnly P (synthetic text) fun _ => True
  | markSentinel : UsesOnly P markSentinel fun _ => True

namespace UsesOnly

variable {P P' : Range → Prop} {α β : Type} {m : Weaving α} {m' : Weaving β} {Q : α → Prop}
  {R : β → Prop}

/-- One program after another, whose result it ignores. -/
theorem next (h : UsesOnly P m Q) (h' : UsesOnly P m' R) : UsesOnly P (m >>= fun _ => m') R :=
  h.bind fun _ _ => h'

theorem mono (h : UsesOnly P m Q) (himp : ∀ r, P r → P' r) : UsesOnly P' m Q := by
  induction h with
  | pure h => exact .pure h
  | bind _ _ ih ihf => exact .bind ih ihf
  | alloc k h => exact .alloc k (himp _ h)
  | slice h => exact .slice (himp _ h)
  | copy h => exact .copy (himp _ h)
  | copyFragment owner field h => exact .copyFragment owner field (himp _ h)
  | pushTask start action h hf =>
    exact .pushTask start action (himp _ h) fun f hmem => himp _ (hf f hmem)
  | place parent id => exact .place parent id
  | link owner role branch => exact .link owner role branch
  | offset => exact .offset
  | synthetic text => exact .synthetic text
  | markSentinel => exact .markSentinel

end UsesOnly

/-! Programs of weaving. -/

section Programs

variable {P : Range → Prop}

theorem copyMore_usesOnly (hps : ∀ p ∈ ps, P p.range) :
    UsesOnly P (copyMore ps) fun fs => ∀ f ∈ fs, P f.source := by
  induction ps with
  | nil => exact .pure (by simp)
  | cons p ps ih =>
    obtain ⟨hp, hps⟩ := forall_mem_cons.mp hps
    refine .next (.synthetic _) ?_
    refine .bind (.copyFragment _ _ hp) fun f hf => ?_
    refine .bind (ih hps) fun fs hfs => .pure ?_
    exact forall_mem_cons.mpr ⟨hf ▸ hp, hfs⟩

theorem copyList_usesOnly (hps : ∀ p ∈ ps, P p.range) :
    UsesOnly P (copyList ps) fun fs => ∀ f ∈ fs, P f.source := by
  cases ps with
  | nil => exact .pure (by simp)
  | cons p ps =>
    obtain ⟨hp, hps⟩ := forall_mem_cons.mp hps
    refine .bind (.copyFragment _ _ hp) fun f hf => ?_
    refine .bind (copyMore_usesOnly hps) fun fs hfs => .pure ?_
    exact forall_mem_cons.mpr ⟨hf ▸ hp, hfs⟩

theorem wrapCallback_usesOnly {owner : NodeId} {params : List Pending} {content : Weaving Unit}
    (hr : P r) (hparams : ∀ p ∈ params, P p.range) (hcontent : UsesOnly P content fun _ => True) :
    UsesOnly P (wrapCallback owner r.start params content) fun _ => True := by
  refine .bind .offset fun start _ => ?_
  refine .next (.synthetic _) ?_
  refine .bind (copyList_usesOnly ?_) fun fragments hfrags => ?_
  · exact fun p hp => hparams p ((mergeSort_perm ..).mem_iff.mp hp)
  refine .next (.synthetic _) ?_
  refine .next hcontent ?_
  refine .next (.synthetic _) ?_
  exact .next (.pushTask start _ hr hfrags) (.synthetic _)

theorem attributeValue_usesOnly {v : AttributeValue} (hv : ∀ x ∈ v.recordedRanges, P x.2) :
    UsesOnly P (attributeValue v) fun x => ∀ p ∈ x.2, P p.range := by
  cases v with
  | text r value =>
    have hr : P r := hv (.attributeText, r) (by simp [AttributeValue.recordedRanges])
    exact .bind (.alloc _ hr) fun id _ => .pure (by simp)
  | mustache r e =>
    simp only [AttributeValue.recordedRanges, forall_mem_cons] at hv
    exact .bind (.alloc _ hv.1) fun id _ => .pure (by simpa using hv.2.1)

theorem attributeValues_usesOnly {vs : List AttributeValue}
    (hvs : ∀ x ∈ vs.flatMap AttributeValue.recordedRanges, P x.2) :
    UsesOnly P (attributeValues vs) fun x => ∀ p ∈ x.2, P p.range := by
  induction vs with
  | nil => exact .pure (by simp)
  | cons v vs ih =>
    rw [flatMap_cons, forall_mem_append] at hvs
    refine .bind (attributeValue_usesOnly hvs.1) fun x hx => ?_
    refine .bind (ih hvs.2) fun y hy => .pure ?_
    exact forall_mem_append.mpr ⟨hx, hy⟩

theorem directive_ranges {d : Directive} (id : NodeId)
    (hd : ∀ x ∈ (Attribute.directive d).recordedRanges, P x.2) :
    ∀ p ∈ directivePending id d ++ directiveBindings id d, P p.range := by
  simp only [Attribute.recordedRanges, cons_append, forall_mem_cons,
    forall_mem_append, recordedOption, forall_mem_map, Option.mem_toList] at hd
  obtain ⟨-, hname, hexpr⟩ := hd
  have heffective : ∀ r, d.effectiveExpression = some r → P r := by
    intro r hr
    unfold Directive.effectiveExpression at hr
    split at hr
    · rcases Option.or_eq_some_iff.mp hr with hr | ⟨-, hr⟩
      · exact hexpr r hr
      · exact hname r hr
    · exact hexpr r hr
  have hexpressions : ∀ p ∈ d.effectiveExpression.toList.map (Pending.mk id .expression),
      P p.range := by
    simpa using heffective
  have hnames : ∀ p ∈ d.nameRange.toList.map (Pending.mk id .nameExpression), P p.range := by
    simpa using hname
  unfold directivePending directiveBindings
  simp only [forall_mem_append]
  refine ⟨⟨?_, ?_⟩, ?_⟩
  · split
    · exact hnames
    · simp
  · split
    · simp
    · exact hexpressions
  · split
    · exact hexpressions
    · simp

theorem attributeNode_usesOnly {a : Attribute} (ha : ∀ x ∈ a.recordedRanges, P x.2) :
    UsesOnly P (attributeNode a) fun x => ∀ p ∈ x.parts, P p.range := by
  cases a with
  | plain r name value =>
    obtain ⟨hr, hvalue⟩ := forall_mem_cons.mp ha
    refine .bind (attributeValues_usesOnly hvalue) fun x hx => ?_
    exact .bind (.alloc _ hr) fun id _ => .pure (by simpa [WovenAttribute.parts] using hx)
  | shorthand r _ e | spread r e =>
    simp only [Attribute.recordedRanges, forall_mem_cons] at ha
    exact .bind (.alloc _ ha.1) fun id _ => .pure (by simpa [WovenAttribute.parts] using ha.2.1)
  | directive d =>
    exact .bind (.alloc _ (ha (.attribute, d.range) (by simp [Attribute.recordedRanges])))
      fun id _ => .pure (directive_ranges id ha)

theorem attributeNodes_usesOnly {as : List Attribute}
    (has : ∀ x ∈ as.flatMap Attribute.recordedRanges, P x.2) :
    UsesOnly P (attributeNodes as) fun ws => ∀ x ∈ ws, ∀ p ∈ x.parts, P p.range := by
  induction as with
  | nil => exact .pure (by simp)
  | cons a as ih =>
    rw [flatMap_cons, forall_mem_append] at has
    refine .bind (attributeNode_usesOnly has.1) fun x hx => ?_
    refine .bind (ih has.2) fun xs hxs => .pure ?_
    exact forall_mem_cons.mpr ⟨hx, hxs⟩

theorem eachParameters_usesOnly {id : NodeId} {context index : Option Range}
    (hctx : ∀ r ∈ context, P r) (hindex : ∀ r ∈ index, P r) :
    UsesOnly P (eachParameters id context index) fun x => ∀ f ∈ x.1, P f.source := by
  have hsecond {first : List Fragment × Bool} {r : Range} (hfirst : ∀ f ∈ first.1, P f.source)
      (hr : P r) : UsesOnly P (do
        synthetic ", "
        let f ← copyFragment id .index r
        return (first.1 ++ [f], first.2)) fun x => ∀ f ∈ x.1, P f.source := by
    refine .next (.synthetic _) ?_
    refine .bind (.copyFragment _ _ hr) fun f hf => .pure ?_
    refine forall_mem_append.mpr ⟨hfirst, forall_mem_singleton.mpr ?_⟩
    exact hf ▸ hr
  cases context with
  | some r =>
    refine .bind (.copyFragment _ _ (hctx r rfl)) fun f hf => ?_
    have hf : ∀ f' ∈ [f], P f'.source := forall_mem_singleton.mpr (hf ▸ hctx r rfl)
    cases index with
    | none => exact .pure hf
    | some s => exact hsecond hf (hindex s rfl)
  | none =>
    cases index with
    | none => exact .pure (by simp)
    | some s => exact .next (.synthetic _) (hsecond (by simp) (hindex s rfl))

/-- Allocating and placing a node, and going on with it. -/
theorem newNode_usesOnly {β : Type} {R : β → Prop} {k : Kind} {parent : Option NodeId}
    {f : NodeId → Weaving β} (hr : P r) (hf : ∀ id, UsesOnly P (f id) R) :
    UsesOnly P (do let id ← alloc k r; place parent id; f id) R :=
  .bind (.alloc k hr) fun id _ => .next (.place parent id) (hf id)

/-- Opening a wrapper with the copy of a range, and going on in it. -/
theorem opening_usesOnly {β : Type} {R : β → Prop} {before after : String} {owner : NodeId}
    {field : SlotField} {f : Nat → Fragment → Weaving β} (hr : P r)
    (hf : ∀ start x, P x.source → UsesOnly P (f start x) R) : UsesOnly P (do
      let start ← offset
      synthetic before
      let x ← copyFragment owner field r
      synthetic after
      f start x) R := by
  refine .bind .offset fun start _ => .next (.synthetic _) ?_
  refine .bind (.copyFragment _ _ hr) fun x hx => .next (.synthetic _) ?_
  exact hf start x (hx ▸ hr)

theorem closing_usesOnly {start : Nat} {fs : List Fragment} {action : Action} {text : String}
    (hr : P r) (hfs : ∀ f ∈ fs, P f.source) :
    UsesOnly P (do pushTask start r.start fs action; synthetic text) fun _ => True :=
  .next (.pushTask start _ hr hfs) (.synthetic _)

theorem wrapExpression_usesOnly {p : Pending} (hp : P p.range) :
    UsesOnly P (wrapExpression p) fun _ => True :=
  opening_usesOnly hp fun _ _ hx => closing_usesOnly hp (forall_mem_singleton.mpr hx)

theorem wrapExpressions_usesOnly (hps : ∀ p ∈ ps, P p.range) :
    UsesOnly P (wrapExpressions ps) fun _ => True := by
  induction ps with
  | nil => exact .pure trivial
  | cons p ps ih =>
    obtain ⟨hp, hps⟩ := forall_mem_cons.mp hps
    exact .next (wrapExpression_usesOnly hp) (ih hps)

theorem optional_ranges {x : Option Range} {role : RangeRole}
    (h : ∀ y ∈ recordedOption role x, P y.2) : ∀ r ∈ x, P r :=
  fun r hr => h (role, r) (by simpa [recordedOption] using hr)

/-! The constructs of markup, one by one. -/

section Constructs

variable {parent : Option NodeId} {e : Range} {children : List Markup} {elseBranch : Option Branch}
  (hr : P r) (hkids : ∀ id, UsesOnly P (nodes (some id) children) fun _ => True)

include hr

theorem text_usesOnly (value : String) :
    UsesOnly P (node parent (.text r value)) fun _ => True := by
  show UsesOnly P (do
    let text ← slice r
    let id ← alloc (.markupText (if value.isEmpty then text else value)) r
    place parent id) _
  exact .bind (.slice hr) fun text _ => .bind (.alloc _ hr) fun id _ => .place parent id

theorem constTag_usesOnly (he : P e) : UsesOnly P (node parent (.constTag r e)) fun _ => True := by
  rw [node]
  refine newNode_usesOnly hr fun id => opening_usesOnly he fun start x hx => ?_
  exact closing_usesOnly hr (forall_mem_singleton.mpr hx)

include hkids

theorem element_usesOnly {name : String} {kind : ElementKind} {nameRange : Option Range}
    {attrs : List Attribute}
    (hname : ∀ r ∈ nameRange, P r) (hattrs : ∀ x ∈ attrs.flatMap Attribute.recordedRanges, P x.2) :
    UsesOnly P (node parent (.element name kind r nameRange attrs children)) fun _ => True := by
  rw [node]
  refine .bind (attributeNodes_usesOnly hattrs) fun woven hwoven => newNode_usesOnly hr fun id => ?_
  have hpend : ∀ p ∈ woven.flatMap (·.pending), P p.range := by
    intro p hp
    obtain ⟨x, hx, hp⟩ := mem_flatMap.mp hp
    exact hwoven x hx p (mem_append_left _ hp)
  have hbindings : ∀ p ∈ woven.flatMap (·.bindings), P p.range := by
    intro p hp
    obtain ⟨x, hx, hp⟩ := mem_flatMap.mp hp
    exact hwoven x hx p (mem_append_right _ hp)
  refine .next (wrapExpressions_usesOnly ?_) (.next (wrapExpressions_usesOnly hpend) ?_)
  · intro p hp
    obtain ⟨r', hr', rfl⟩ := mem_map.mp hp
    split at hr'
    · exact hname r' (Option.mem_toList.mp hr')
    · cases hr'
  dsimp only
  split
  · exact hkids id
  · exact wrapCallback_usesOnly hr hbindings (hkids id)

theorem ifBlock_usesOnly {elseIf : Bool} (he : P e)
    (helse : ∀ id, UsesOnly P (ifElse id elseBranch) fun _ => True) :
    UsesOnly P (node parent (.ifBlock r e elseIf children elseBranch)) fun _ => True := by
  rw [node]
  refine newNode_usesOnly hr fun id => opening_usesOnly he fun start x hx => ?_
  refine .next (hkids id) (.bind (helse id) fun elseOwner _ => .next (.synthetic _) ?_)
  exact closing_usesOnly hr (forall_mem_singleton.mpr hx)

theorem eachBlock_usesOnly {context index key : Option Range} (he : P e)
    (hctx : ∀ r ∈ context, P r) (hindex : ∀ r ∈ index, P r) (hkey : ∀ r ∈ key, P r)
    (helse : ∀ id, UsesOnly P (plainBranch id .otherwise (.markupElseBlock []) elseBranch) fun _ =>
      True) :
    UsesOnly P (node parent (.eachBlock r e context index key children elseBranch))
      fun _ => True := by
  rw [node]
  refine newNode_usesOnly hr fun id => opening_usesOnly he fun start x hx => ?_
  refine .bind (eachParameters_usesOnly hctx hindex) fun params hparams =>
    .next (.synthetic _) ?_
  refine .next (wrapExpressions_usesOnly (by simpa using hkey))
    (.next (hkids id) (.next (.synthetic _) ?_))
  refine .next (.pushTask start _ hr (forall_mem_cons.mpr ⟨hx, hparams⟩)) ?_
  exact .next (.synthetic _) (helse id)

theorem snippetBlock_usesOnly {params : List Range} (he : P e) (hparams : ∀ r ∈ params, P r) :
    UsesOnly P (node parent (.snippetBlock r e params children)) fun _ => True := by
  rw [node]
  refine newNode_usesOnly hr fun id => opening_usesOnly he fun start x hx => ?_
  refine .bind (copyList_usesOnly (forall_mem_map.mpr hparams))
    fun fs hfs => .next (.synthetic _) ?_
  refine .next (hkids id) (.next (.synthetic _) ?_)
  exact closing_usesOnly hr (forall_mem_cons.mpr ⟨hx, hfs⟩)

end Constructs

mutual

theorem node_usesOnly (parent : Option NodeId) (m : Markup) (h : ∀ x ∈ m.recordedRanges, P x.2) :
    UsesOnly P (node parent m) fun _ => True := by
  cases m with
  | text r value => exact text_usesOnly (h (.node, r) (by simp [recordedRanges])) value
  | mustache | renderTag =>
    rw [node]
    simp only [recordedRanges, forall_mem_cons] at h
    exact newNode_usesOnly h.1 fun id => wrapExpression_usesOnly h.2.1
  | constTag =>
    simp only [recordedRanges, forall_mem_cons] at h
    exact constTag_usesOnly h.1 h.2.1
  | keyBlock r e children =>
    rw [node]
    simp only [recordedRanges, forall_mem_cons] at h
    refine newNode_usesOnly h.1 fun id => ?_
    exact .next (wrapExpression_usesOnly h.2.1) (nodes_usesOnly (some id) children h.2.2)
  | element name kind r nameRange attrs children =>
    simp only [recordedRanges, cons_append, forall_mem_cons, forall_mem_append] at h
    obtain ⟨hr, ⟨hname, hattrs⟩, hkids⟩ := h
    exact element_usesOnly hr (fun id => nodes_usesOnly _ _ hkids) (optional_ranges hname) hattrs
  | ifBlock r test elseIf children elseBranch =>
    simp only [recordedRanges, cons_append, forall_mem_cons, forall_mem_append] at h
    obtain ⟨hr, htest, ⟨hbranch, hkids⟩, helse⟩ := h
    exact ifBlock_usesOnly hr (fun id => nodes_usesOnly _ _ hkids) htest fun id =>
      ifElse_usesOnly id elseBranch hbranch helse
  | eachBlock r e context index key children elseBranch =>
    simp only [recordedRanges, cons_append, forall_mem_cons, forall_mem_append] at h
    obtain ⟨hr, he, ⟨⟨⟨⟨hctx, hindex⟩, hkey⟩, hbranch⟩, hkids⟩, helse⟩ := h
    exact eachBlock_usesOnly hr (fun id => nodes_usesOnly _ _ hkids) he
      (optional_ranges hctx) (optional_ranges hindex) (optional_ranges hkey) fun id =>
        plainBranch_usesOnly id .otherwise _ elseBranch hbranch helse
  | awaitBlock r e pending fulfilled rejected =>
    rw [node]
    simp only [recordedRanges, cons_append, forall_mem_cons, forall_mem_append] at h
    obtain ⟨hr, he, ⟨⟨⟨⟨hbranch, hown⟩, hown'⟩, hpend⟩, hfulfilled⟩, hrejected⟩ := h
    refine newNode_usesOnly hr fun id => .next (wrapExpression_usesOnly he) ?_
    refine .next (plainBranch_usesOnly id .pending _ pending hbranch hpend) ?_
    refine .next (awaitBranch_usesOnly id .fulfilled _ .value fulfilled hown hfulfilled) ?_
    exact awaitBranch_usesOnly id .rejected _ .error rejected hown' hrejected
  | snippetBlock r name params children =>
    simp only [recordedRanges, cons_append, forall_mem_cons, forall_mem_append] at h
    obtain ⟨hr, hname, hparams, hkids⟩ := h
    exact snippetBlock_usesOnly hr (fun id => nodes_usesOnly _ _ hkids) hname fun r hr =>
      hparams (.snippetParameter, r) (mem_map_of_mem hr)

theorem nodes_usesOnly (parent : Option NodeId) : (ms : List Markup) →
    (∀ x ∈ recordedList ms, P x.2) → UsesOnly P (nodes parent ms) fun _ => True
  | [], _ => by
    rw [nodes]
    exact .pure trivial
  | m :: ms, h => by
    rw [nodes]
    rw [recordedList, forall_mem_append] at h
    exact .next (node_usesOnly parent m h.1) (nodes_usesOnly parent ms h.2)

theorem ifElse_usesOnly (owner : NodeId) : (b : Option Branch) →
    (∀ x ∈ recordedOption .elseBranch (b.map Branch.range), P x.2) →
    (∀ x ∈ Branch.recordedContent b, P x.2) → UsesOnly P (ifElse owner b) fun _ => True
  | none, _, _ => by
    rw [ifElse]
    exact .pure trivial
  | some (.mk r children), hr, h => by
    rw [ifElse]
    rw [Branch.recordedContent] at h
    have hr : P r := by simpa [recordedOption, Branch.range] using hr
    refine .bind (.alloc _ hr) fun id _ => ?_
    refine .next (.link owner .otherwise id) ?_
    refine .next (.synthetic _) ?_
    exact .next (nodes_usesOnly (some id) children h) (.pure trivial)

theorem plainBranch_usesOnly {role : RangeRole} (owner : NodeId) (branch : BranchRole)
    (kind : Kind) : (b : Option Branch) → (∀ x ∈ recordedOption role (b.map Branch.range), P x.2) →
    (∀ x ∈ Branch.recordedContent b, P x.2) →
    UsesOnly P (plainBranch owner branch kind b) fun _ => True
  | none, _, _ => by
    rw [plainBranch]
    exact .pure trivial
  | some (.mk r children), hr, h => by
    rw [plainBranch]
    rw [Branch.recordedContent] at h
    have hr : P r := by simpa [recordedOption, Branch.range] using hr
    refine .bind (.alloc _ hr) fun id _ => ?_
    exact .next (.link owner branch id) (nodes_usesOnly (some id) children h)

theorem awaitBranch_usesOnly (owner : NodeId) (branch : BranchRole) (kind : Kind)
    (field : SlotField) : (b : Option AwaitBranch) → (∀ x ∈ AwaitBranch.ownRanges b, P x.2) →
    (∀ x ∈ AwaitBranch.recordedContent b, P x.2) →
    UsesOnly P (awaitBranch owner branch kind field b) fun _ => True
  | none, _, _ => by
    rw [awaitBranch]
    exact .pure trivial
  | some (.mk r binding children), hown, h => by
    rw [awaitBranch]
    rw [AwaitBranch.recordedContent] at h
    simp only [AwaitBranch.ownRanges, AwaitBranch.range, AwaitBranch.binding, forall_mem_cons]
      at hown
    refine .bind (.alloc _ hown.1) fun id _ => ?_
    refine .next (.link owner branch id) ?_
    refine wrapCallback_usesOnly hown.1 ?_ (nodes_usesOnly (some id) children h)
    intro p hp
    obtain ⟨r', hr', rfl⟩ := mem_map.mp hp
    exact hown.2 (.awaitBinding, r') (by simpa [recordedOption] using hr')

end

theorem scripts_usesOnly {ss : List ScriptBlock} (hss : ∀ s ∈ ss, P s.content) :
    UsesOnly P (scripts ss) fun _ => True := by
  induction ss with
  | nil => exact .pure trivial
  | cons s ss ih =>
    obtain ⟨hs, hss⟩ := forall_mem_cons.mp hss
    refine .next (.copy hs) ?_
    exact .next (.synthetic _) (ih hss)

/-- Weaving a document uses the ranges that the document holds. -/
theorem document_usesOnly (d : Document) : UsesOnly d.Records (document d) fun _ => True := by
  have hrecords : ∀ x ∈ d.recordedRanges, d.Records x.2 := fun x hx =>
    listed_document.mp ⟨x.1, hx⟩
  obtain ⟨-, hnodes⟩ := forall_mem_append.mp hrecords
  refine .next (scripts_usesOnly ?_) ?_
  · exact fun s hs => .inl ⟨s, (mergeSort_perm ..).mem_iff.mp hs, rfl⟩
  refine .next (nodes_usesOnly none d.nodes hnodes) ?_
  exact .next .markSentinel (.synthetic _)

end Programs

/-! What such programs leave behind. -/

/-- The anchor of a task is the start of a range with `P`, and its fragments are copies of such
ranges. -/
structure TaskUses (P : Range → Prop) (t : Task) : Prop where
  anchor : ∃ r, P r ∧ t.anchor = r.start
  fragments : ∀ f ∈ t.fragments, P f.source

/-- New nodes and tasks from ranges with `P`. -/
structure Extends (P : Range → Prop) (w w' : Weaver) : Prop where
  size : w.arena.size ≤ w'.arena.size
  kept : ∀ id, id < w.arena.size → w'.arena.range id = w.arena.range id
  placed : ∀ id, w.arena.size ≤ id → id < w'.arena.size → P (w'.arena.range id)
  tasks : ∃ ts, w'.draft.tasks = w.draft.tasks ++ ts ∧ ∀ t ∈ ts, TaskUses P t
  runs : ∃ steps, w'.draft = run steps w.draft

section Extends

variable {P : Range → Prop} {w w1 w2 : Weaver}

theorem Extends.of_arena (hsize : w1.arena.size = w.arena.size)
    (hrange : ∀ id, w1.arena.range id = w.arena.range id) (hdraft : w1.draft = w.draft) :
    Extends P w w1 where
  size := Nat.le_of_eq hsize.symm
  kept := fun id _ => hrange id
  placed := fun id hge hlt => absurd hlt (by omega)
  tasks := ⟨[], by simp [hdraft], by simp⟩
  runs := ⟨[], hdraft⟩

/-- A step on the draft. -/
theorem Extends.of_step (step : DraftStep) (harena : w1.arena = w.arena)
    (hdraft : w1.draft = step.perform w.draft)
    (htasks : ∃ ts, w1.draft.tasks = w.draft.tasks ++ ts ∧ ∀ t ∈ ts, TaskUses P t) :
    Extends P w w1 where
  size := Nat.le_of_eq (congrArg Arena.size harena.symm)
  kept := fun id _ => by rw [harena]
  placed := fun id hge hlt => absurd hlt (by rw [harena]; omega)
  tasks := htasks
  runs := ⟨[step], hdraft⟩

theorem Extends.trans (h : Extends P w w1) (h' : Extends P w1 w2) : Extends P w w2 where
  size := Nat.le_trans h.size h'.size
  kept := fun id hid => (h'.kept id (Nat.lt_of_lt_of_le hid h.size)).trans (h.kept id hid)
  placed := by
    intro id hge hlt
    by_cases hid : id < w1.arena.size
    · rw [h'.kept id hid]
      exact h.placed id hge hid
    · exact h'.placed id (Nat.le_of_not_lt hid) hlt
  tasks := by
    obtain ⟨ts, htasks, hts⟩ := h.tasks
    obtain ⟨ts', htasks', hts'⟩ := h'.tasks
    exact ⟨ts ++ ts', by rw [htasks', htasks, append_assoc], forall_mem_append.mpr ⟨hts, hts'⟩⟩
  runs := by
    obtain ⟨steps, hsteps⟩ := h.runs
    obtain ⟨more, hmore⟩ := h'.runs
    exact ⟨steps ++ more, by rw [hmore, hsteps, run, run, run, foldl_append]⟩

theorem UsesOnly.extends {α : Type} {m : Weaving α} {Q : α → Prop} (h : UsesOnly P m Q) :
    Ensures m w fun x w' => Q x ∧ Extends P w w' := by
  have hnone : ∀ d : Draft, ∃ ts, d.tasks = d.tasks ++ ts ∧ ∀ t ∈ ts, TaskUses P t := fun d =>
    ⟨[], (append_nil _).symm, by simp⟩
  induction h generalizing w with
  | pure hx => exact ⟨hx, .of_arena rfl (fun _ => rfl) rfl⟩
  | bind _ _ ih ihf =>
    refine ih.bind fun x w1 hx => ?_
    exact (ihf x hx.1).imp fun _ _ hy => ⟨hy.1, hx.2.trans hy.2⟩
  | @alloc r k hr =>
    have hsize : (w.arena.allocAt k r w.coords).2.size = w.arena.size + 1 := Arena.size_allocAt ..
    have hrange := Arena.range_allocAt (a := w.arena) k r w.coords
    refine ⟨trivial, ?_, ?_, ?_, hnone w.draft, [], rfl⟩
    · exact hsize ▸ Nat.le_succ _
    · intro id hid
      exact (hrange id).trans (if_neg (Nat.ne_of_lt hid))
    · intro id hge hlt
      have hlt : id < w.arena.size + 1 := lt_of_lt_of_eq hlt hsize
      have hid : id = w.arena.size := Nat.le_antisymm (Nat.le_of_lt_succ hlt) hge
      exact ((hrange id).trans (if_pos hid)).symm ▸ hr
  | slice | offset => exact ⟨trivial, .of_arena rfl (fun _ => rfl) rfl⟩
  | @copy r => exact ⟨trivial, .of_step (.copy r) rfl rfl (hnone w.draft)⟩
  | @copyFragment r owner field =>
    exact ⟨rfl, .of_step (.copyFragment owner field r) rfl rfl (hnone w.draft)⟩
  | @pushTask r fragments start action hr hf =>
    refine ⟨trivial, .of_step (.pushTask start r.start fragments action) rfl rfl ⟨_, rfl, ?_⟩⟩
    exact forall_mem_singleton.mpr ⟨⟨_, hr, rfl⟩, hf⟩
  | place parent id =>
    refine ⟨trivial, ?_⟩
    cases parent with
    | none => exact .of_arena rfl (fun _ => rfl) rfl
    | some p => exact .of_arena (Arena.Relinked.pushChild p id).size (Arena.Relinked.pushChild p id).range rfl
  | link owner role branch =>
    refine ⟨trivial, .of_arena ?_ (fun id => ?_) rfl⟩
    · exact (Arena.size_setParent ..).trans (Arena.size_setKind ..)
    · exact Arena.range_setParent.trans Arena.range_setKind
  | synthetic text => exact ⟨trivial, .of_step (.synthetic text) rfl rfl (hnone w.draft)⟩
  | markSentinel => exact ⟨trivial, .of_step .markSentinel rfl rfl (hnone w.draft)⟩

end Extends

end Weaving

section Weave

variable (coords : Coordinates) (d : Document) (arena : Arena)

/-- The nodes and the tasks of a woven document come from ranges that the document holds. -/
theorem weave_extends :
    (∀ id, arena.size ≤ id → id < (weave coords d arena).arena.size →
      d.Records ((weave coords d arena).arena.range id)) ∧
    ∀ t ∈ (weave coords d arena).script.tasks, Weaving.TaskUses d.Records t := by
  have hextends := ((Weaving.document_usesOnly d).extends
    (w := ⟨coords, arena, .ofSource coords.text, []⟩)).2
  refine ⟨hextends.placed, fun t ht => ?_⟩
  obtain ⟨ts, htasks, hts⟩ := hextends.tasks
  have ht := (mergeSort_perm ..).mem_iff.mp ht
  rw [htasks] at ht
  exact hts t (by simpa [ofSource] using ht)

/-- The script of a document is made of steps on a draft of its source. -/
theorem weave_script_run :
    ∃ steps, (weave coords d arena).script = (run steps (.ofSource coords.text)).finish := by
  obtain ⟨steps, hsteps⟩ := (Weaving.document_usesOnly d).extends.2.runs
  exact ⟨steps, congrArg finish hsteps⟩

end Weave

end Loom
