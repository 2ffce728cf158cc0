import Loom.Proofs.Weave.Embedded
import Loom.Proofs.Weave.Plan

/-!
Weaving plans every slot that a document asks for, whatever its ranges are.

A function of weaving adds nodes to the arena and grows the draft. The tasks that it pushes hold one
fragment for each slot that its construct asks for, and the nodes that it adds are the owners of
these slots and of the wrappers. The proof follows the recursion over the markup.
-/

open List

namespace Loom

open Embedded Arena

theorem Embedded.map_pending_option (owner : NodeId) (kind : Kind) (node : Range)
    (field : SlotField) (source : Option Range) :
    (option owner kind node field source).map pending = source.toList.map (⟨owner, field, ·⟩) :=
  map_map

/-- The node that a slot is asked of is in the arena. -/
def Embedded.StandsIn (e : Embedded) (a : Arena) : Prop :=
  e.owner < a.size ∧ (a.kind e.owner).blank = e.kind ∧ a.range e.owner = e.node

/-- An arena grew by `n` nodes, among them the owners of the slots `es`. -/
structure Expands (n : Nat) (es : List Embedded) (a a' : Arena) : Prop where
  size : a'.size = a.size + n
  keeps : a.Keeps a'
  range : ∀ i < a.size, a'.range i = a.range i
  stands : ∀ e ∈ es, e.StandsIn a'

namespace Expands

variable {n n' : Nat} {es es' : List Embedded} {a a1 a' : Arena}

theorem same (hsize : a'.size = a.size) (hkeeps : a.Keeps a')
    (hrange : ∀ i, a'.range i = a.range i) : Expands 0 [] a a' :=
  ⟨hsize, hkeeps, fun i _ => hrange i, by simp⟩

theorem refl (a : Arena) : Expands 0 [] a a := same rfl (.refl a) fun _ => rfl

theorem trans (h : Expands n es a a1) (h' : Expands n' es' a1 a') :
    Expands (n + n') (es ++ es') a a' := by
  refine ⟨?_, h.keeps.trans h'.keeps, fun i hi => ?_, fun e he => ?_⟩
  · rw [h'.size, h.size, Nat.add_assoc]
  · rw [h'.range i (Nat.lt_of_lt_of_le hi h.keeps.size), h.range i hi]
  · rcases mem_append.mp he with he | he
    · obtain ⟨hlt, hkind, hrange⟩ := h.stands e he
      exact ⟨Nat.lt_of_lt_of_le hlt h'.keeps.size, (h'.keeps.blank _ hlt).trans hkind,
        (h'.range _ hlt).trans hrange⟩
    · exact h'.stands e he

/-- A new node is the owner of its slots. -/
theorem allocAt {k : Kind} {r : Range} (coords : Coordinates)
    (hes : ∀ e ∈ es, e.owner = a.size ∧ e.kind = k.blank ∧ e.node = r) :
    Expands 1 es a (a.allocAt k r coords).2 := by
  refine ⟨size_allocAt .., .allocAt k r coords, fun i hi => ?_, fun e he => ?_⟩
  · rw [range_allocAt, if_neg (Nat.ne_of_lt hi)]
  · obtain ⟨howner, hkind, hnode⟩ := hes e he
    rw [Embedded.StandsIn, howner, size_allocAt, kind_allocAt, range_allocAt, hkind, hnode]
    exact ⟨Nat.lt_succ_self _, by rw [if_pos rfl], if_pos rfl⟩

end Expands

namespace Weaving

open Template

variable {w : Weaver}

/-- Weaving added `n` nodes, and planned the slots `es` for some of them. -/
structure Covers (n : Nat) (es : List Embedded) (w w' : Weaver) : Prop where
  arena : Expands n es w.arena w'.arena
  draft : Wove w.draft w.arena.size true [] [] (es.map pending) w'

theorem Covers.refl (w : Weaver) : Covers 0 [] w w := ⟨.refl _, .start w⟩

theorem Covers.trans {n n' : Nat} {es es' : List Embedded} {w1 w' : Weaver} (h : Covers n es w w1)
    (h' : Covers n' es' w1 w') : Covers (n + n') (es ++ es') w w' :=
  ⟨h.arena.trans h'.arena, by rw [map_append]; exact h.draft.trans h'.draft⟩

/-! Nodes. -/

theorem place_expands (parent : Option NodeId) (id : NodeId) (w : Weaver) :
    Ensures (place parent id) w fun _ w' => w'.draft = w.draft ∧ Expands 0 [] w.arena w'.arena := by
  cases parent with
  | none => exact ⟨rfl, .refl _⟩
  | some p =>
    have hpushed := Arena.Relinked.pushChild (a := w.arena) p id
    exact ⟨rfl, .same hpushed.size (.pushChild p id) hpushed.range⟩

theorem link_expands (owner : NodeId) (role : BranchRole) (branch : NodeId) (w : Weaver) :
    Ensures (link owner role branch) w fun _ w' =>
      w'.draft = w.draft ∧ Expands 0 [] w.arena w'.arena := by
  refine ⟨rfl, .same ?_ ((Arena.Keeps.setKind Kind.blank_setBranch).trans (.setParent _)) fun i =>
    ?_⟩
  · exact (size_setParent ..).trans (size_setKind ..)
  · exact range_setParent.trans range_setKind

section Put

variable {β : Type} {f : NodeId → Weaving β} {Q : β → Weaver → Prop} {d : Draft} {n : Nat}

/-- A new node, put somewhere by a step that adds nothing. -/
theorem alloc_put_expands {put : NodeId → Weaving Unit} (k : Kind) (r : Range)
    (hput : ∀ id w, Ensures (put id) w fun _ w' => w'.draft = w.draft ∧
      Expands 0 [] w.arena w'.arena)
    (es : List Embedded) (hes : ∀ e ∈ es, e.owner = w.arena.size ∧ e.kind = k.blank ∧ e.node = r)
    (h : Wove d n true [] [] [] w)
    (hnext : ∀ w1 : Weaver, Expands 1 es w.arena w1.arena → Wove d n true [w.arena.size] [] [] w1 →
      Ensures (f w.arena.size) w1 Q) : Ensures (do let id ← alloc k r; put id; f id) w Q := by
  have halloc : Ensures (alloc k r) w fun id w' =>
      id = w.arena.size ∧ w'.draft = w.draft ∧ Expands 1 es w.arena w'.arena := ⟨rfl, rfl, .allocAt w.coords hes⟩
  refine halloc.bind ?_
  rintro _ w1 ⟨rfl, hdraft, harena⟩
  refine (hput _ w1).bind ?_
  rintro _ w2 ⟨hdraft', harena'⟩
  have hall := harena.trans harena'
  rw [append_nil] at hall
  exact hnext w2 hall (h.alloc (hdraft'.trans hdraft) hall.size)

end Put

/-! Attributes. Their nodes are added before anything is wrapped. -/

/-- No part of an attribute is a parameter. -/
def Unshared (ps : List Pending) : Prop := ∀ p ∈ ps, p.field ≠ .param

theorem attributeValue_expands {n : NodeId} (hn : w.arena.size = n) (v : AttributeValue) :
    Ensures (attributeValue v) w fun x w' => w'.draft = w.draft ∧
      Expands 1 (v.embedded n) w.arena w'.arena ∧ x.2 = (v.embedded n).map pending ∧ Unshared x.2 := by
  subst hn
  cases v with
  | text r value => exact ⟨rfl, .allocAt w.coords (forall_mem_nil _), rfl, forall_mem_nil _⟩
  | mustache r e =>
    exact ⟨rfl, .allocAt w.coords (forall_mem_singleton.mpr ⟨rfl, rfl, rfl⟩), rfl,
      forall_mem_singleton.mpr nofun⟩

theorem attributeValues_expands {n : NodeId} (hn : w.arena.size = n) (vs : List AttributeValue) :
    Ensures (attributeValues vs) w fun x w' => w'.draft = w.draft ∧
      Expands vs.length (AttributeValue.embeddedList n vs) w.arena w'.arena ∧
      x.2 = (AttributeValue.embeddedList n vs).map pending ∧ Unshared x.2 := by
  induction vs generalizing w n with
  | nil => exact ⟨rfl, .refl _, rfl, forall_mem_nil _⟩
  | cons v vs ih =>
    refine (attributeValue_expands hn v).bind ?_
    rintro ⟨id, ps⟩ w1 ⟨hdraft, harena, hps, hunshared⟩
    refine (ih (by rw [harena.size, hn])).bind ?_
    rintro ⟨ids, more⟩ w2 ⟨hdraft', harena', hmore, hunshared'⟩
    refine .pure ⟨hdraft'.trans hdraft, ?_, ?_, forall_mem_append.mpr ⟨hunshared, hunshared'⟩⟩
    · rw [length_cons, Nat.add_comm]
      exact harena.trans harena'
    · rw [AttributeValue.embeddedList, map_append, ← hps, ← hmore]

/-- All the embedded parts of an attribute. -/
def WovenAttribute.parts (x : WovenAttribute) : List Pending := x.pending ++ x.bindings

theorem attributeNode_expands {n : NodeId} (hn : w.arena.size = n) (x : Attribute) :
    Ensures (attributeNode x) w fun y w' => w'.draft = w.draft ∧
      Expands x.count (x.embedded n) w.arena w'.arena ∧ y.parts = (x.embedded n).map pending ∧
      Unshared y.parts := by
  cases x with
  | plain r name value =>
    refine (attributeValues_expands hn value).bind ?_
    rintro ⟨ids, ps⟩ w1 ⟨hdraft, harena, hps, hunshared⟩
    have hall :=
      harena.trans (.allocAt (k := .markupAttribute name ids) (r := r) w1.coords (forall_mem_nil _))
    rw [append_nil] at hall
    refine ⟨hdraft, hall, (append_nil _).trans hps, ?_⟩
    show Unshared (ps ++ [])
    rw [append_nil]
    exact hunshared
  | shorthand r _ e | spread r e =>
    subst hn
    exact ⟨rfl, .allocAt w.coords (forall_mem_singleton.mpr ⟨rfl, rfl, rfl⟩), rfl,
      forall_mem_singleton.mpr nofun⟩
  | directive d =>
    subst hn
    have hparts : directivePending w.arena.size d ++ directiveBindings w.arena.size d =
        (d.embedded w.arena.size).map pending := by
      rw [Directive.embedded, map_append, map_pending_option, map_pending_option]
      unfold directivePending directiveBindings
      split <;> split <;> simp
    have hown : ∀ e ∈ d.embedded w.arena.size, (e.owner = w.arena.size ∧
        e.kind = (Kind.markupDirective d.kind d.name d.modifiers none none).blank ∧ e.node = d.range) ∧
        e.field ≠ .param := by
      intro e he
      rcases mem_append.mp he with he | he
      all_goals
        obtain ⟨source, -, rfl⟩ := mem_map.mp he
        exact ⟨⟨rfl, rfl, rfl⟩, nofun⟩
    refine ⟨rfl, .allocAt w.coords fun e he => (hown e he).1, hparts, ?_⟩
    show Unshared (directivePending w.arena.size d ++ directiveBindings w.arena.size d)
    rw [hparts]
    exact forall_mem_map.mpr fun e he => (hown e he).2

theorem attributeNodes_expands {n : NodeId} (hn : w.arena.size = n) (xs : List Attribute) :
    Ensures (attributeNodes xs) w fun ys w' => w'.draft = w.draft ∧
      Expands (Attribute.countList xs) (Attribute.embeddedList n xs) w.arena w'.arena ∧
      ys.flatMap WovenAttribute.parts = (Attribute.embeddedList n xs).map pending ∧
      Unshared (ys.flatMap WovenAttribute.parts) := by
  induction xs generalizing w n with
  | nil => exact ⟨rfl, .refl _, rfl, forall_mem_nil _⟩
  | cons x xs ih =>
    refine (attributeNode_expands hn x).bind ?_
    rintro y w1 ⟨hdraft, harena, hy, hunshared⟩
    refine (ih (by rw [harena.size, hn])).bind ?_
    rintro ys w2 ⟨hdraft', harena', hys, hunshared'⟩
    refine .pure ⟨hdraft'.trans hdraft, harena.trans harena', ?_,
      forall_mem_append.mpr ⟨hunshared, hunshared'⟩⟩
    rw [flatMap_cons, hy, hys, Attribute.embeddedList, map_append]

/-! The constructs of markup, one by one. -/

/-- Weaving a construct adds its nodes and plans its slots. -/
def NodeCovers (m : Markup) : Prop :=
  ∀ ⦃w : Weaver⦄ ⦃n : NodeId⦄, w.arena.size = n → ∀ parent,
    Ensures (node parent m) w fun _ w' => Covers m.count (m.embedded n) w w'

def NodesCover (ms : List Markup) : Prop :=
  ∀ ⦃w : Weaver⦄ ⦃n : NodeId⦄, w.arena.size = n → ∀ parent,
    Ensures (nodes parent ms) w fun _ w' => Covers (Markup.countList ms) (Markup.embeddedList n ms)
      w w'

/-- The node of the branch is left for the wrapper around it. -/
def ElseCovers (b : Option Branch) : Prop :=
  ∀ ⦃w : Weaver⦄ ⦃n : NodeId⦄, w.arena.size = n → ∀ owner,
    Ensures (ifElse owner b) w fun elseOwner w' =>
    Expands (Branch.count b) (Branch.embedded n b) w.arena w'.arena ∧
      Wove w.draft w.arena.size true elseOwner.toList [] ((Branch.embedded n b).map pending) w'

def BranchCovers (b : Option Branch) : Prop :=
  ∀ ⦃w : Weaver⦄ ⦃n : NodeId⦄, w.arena.size = n → ∀ owner role kind,
    Ensures (plainBranch owner role kind b) w
      fun _ w' => Covers (Branch.count b) (Branch.embedded n b) w w'

/-- A node with one expression. -/
theorem alloc_wrap_covers {k : Kind} {r e : Range} {n : NodeId} (hn : w.arena.size = n)
    (parent : Option NodeId) (hkind : k.blank = k) {es : List Embedded} {m : Nat}
    {rest : Weaving Unit}
    (hrest : ∀ w1 : Weaver, w1.arena.size = n + 1 → Ensures rest w1 fun _ w' => Covers m es w1 w') :
    Ensures (do let id ← alloc k r; place parent id; wrapExpression ⟨id, .expression, e⟩; rest) w
      fun _ w' => Covers (1 + m) (⟨n, k, r, .expression, e⟩ :: es) w w' := by
  subst hn
  refine alloc_put_expands k r (place_expands parent) [⟨w.arena.size, k, r, .expression, e⟩]
    (forall_mem_singleton.mpr ⟨rfl, hkind.symm, rfl⟩) (.start w) fun w1 harena hwove => ?_
  refine (wrapExpression_wove (by simp) hwove).bind ?_
  rintro _ w2 ⟨hsame, hwove2⟩
  rw [← hsame.1] at harena
  exact (hrest w2 harena.size).imp fun _ w' h => Covers.trans ⟨harena, hwove2.drop⟩ h

/-- The fragments of a wrapper are for the node that owns it. -/
theorem fits_of_owner {action : Action} {id : NodeId} {ps : List Pending}
    (hps : ∀ p ∈ ps, p.owner = id) (hid : id ∈ action.owners)
    (hloop : ∀ owner placeholder, action = .eachBlock owner placeholder → id = owner) :
    action.Fits ps :=
  ⟨fun owner placeholder heq p hp => (hps p hp).trans (hloop owner placeholder heq),
    fun p hp _ => hps p hp ▸ hid⟩

theorem element_covers {children : List Markup} (hkids : NodesCover children) (name : String)
    (kind : ElementKind) (r : Range) (nameRange : Option Range) (attributes : List Attribute) :
    NodeCovers (.element name kind r nameRange attributes children) := by
  intro w n hn parent
  rw [Markup.count, Markup.embedded, node]
  refine (attributeNodes_expands hn attributes).bind ?_
  rintro woven w1 ⟨hdraft1, harena1, hparts, hunshared⟩
  have hid : w1.arena.size = n + Attribute.countList attributes := by rw [harena1.size, hn]
  let names := option (n + Attribute.countList attributes) (.markupElement name kind none [] []) r
    .nameExpression (if kind = .component then nameRange else none)
  have hown : ∀ e ∈ names,
      (e.owner = w1.arena.size ∧ e.kind = .markupElement name kind none [] [] ∧ e.node = r) ∧
      e.field ≠ .param := by
    intro e he
    obtain ⟨source, -, rfl⟩ := mem_map.mp he
    exact ⟨⟨hid.symm, rfl, rfl⟩, nofun⟩
  refine alloc_put_expands _ r (place_expands parent) names (fun e he => (hown e he).1)
    ((Wove.start w).grow hdraft1 harena1.keeps.size) fun w2 harena2 hwove2 => ?_
  rw [hid] at hwove2 ⊢
  have hnames : (if kind = .component then nameRange.toList else []).map
      (⟨n + Attribute.countList attributes, .nameExpression, ·⟩) = names.map pending := by
    rw [map_pending_option]
    split <;> rfl
  have hperm : (woven.flatMap WovenAttribute.pending ++ woven.flatMap WovenAttribute.bindings).Perm
      (woven.flatMap WovenAttribute.parts) := flatMap_append_perm ..
  dsimp only
  rw [hnames]
  refine (wrapExpressions_wove _ (forall_mem_map.mpr fun e he => (hown e he).2) hwove2).bind ?_
  rintro _ w3 ⟨hsame3, hwove3⟩
  refine (wrapExpressions_wove _ (fun p hp => hunshared p (hperm.subset (mem_append_left _ hp)))
    hwove3).bind ?_
  rintro _ w4 ⟨hsame4, hwove4⟩
  have harena := harena1.trans harena2
  rw [← (hsame3.trans hsame4).1] at harena
  let content := Markup.embeddedList (n + Attribute.countList attributes + 1) children
  have hcontent : ∀ w5 : Weaver, SameTree w4 w5 →
      Ensures (nodes (some (n + Attribute.countList attributes)) children) w5 fun _ w' =>
        Covers (Markup.countList children) content w5 w' := fun w5 hsame5 =>
    hkids (by rw [hsame5.1, harena.size, hn, Nat.add_assoc]) _
  -- The bindings of the attributes are planned with the content, the rest of the attributes before it.
  have hplanned : ([] ++ names.map pending ++ woven.flatMap WovenAttribute.pending ++
      (woven.flatMap WovenAttribute.bindings ++ content.map pending)).Perm
        ((Attribute.embeddedList n attributes ++ names ++ content).map pending) := by
    rw [nil_append, append_assoc, ← append_assoc (woven.flatMap WovenAttribute.pending),
      ← append_assoc, map_append, map_append, ← hparts]
    exact (perm_append_comm.trans (hperm.append_right _)).append_right _
  split
  · next hempty =>
    rw [isEmpty_iff.mp hempty, nil_append] at hplanned
    exact (hcontent w4 ⟨rfl, rfl⟩).imp fun _ w' h =>
      ⟨harena.trans h.arena, (hwove4.drop.trans h.draft).perm hplanned⟩
  · refine (wrapCallback_wove (Q := fun w' => Expands _ content w4.arena w'.arena) hwove4
      (fun p hp => hunshared p (hperm.subset (mem_append_right _ hp)))
      (fun w5 hsame5 => (hcontent w5 hsame5).imp fun _ w' h => ⟨hsame5.1 ▸ h.arena, h.draft⟩)
      fun _ _ h => h).imp fun _ w' h => ⟨harena.trans h.1, h.2.perm hplanned⟩

section

variable (r e : Range)

theorem text_covers (value : String) : NodeCovers (.text r value) := by
  intro w n hn parent
  rw [Markup.count, Markup.embedded, node]
  refine get_bind (alloc_put_expands _ r (place_expands parent) [] (forall_mem_nil _) (.start w)
    fun w1 harena hwove => ?_)
  exact ⟨harena, hwove.drop⟩

theorem constTag_covers : NodeCovers (.constTag r e) := by
  intro w n hn parent
  rw [Markup.count, Markup.embedded, node]
  subst hn
  refine alloc_put_expands _ r (place_expands parent)
    [⟨_, .markupConstTag none, r, .declaration, e⟩]
    (forall_mem_singleton.mpr ⟨rfl, rfl, rfl⟩) (.start w) fun w1 harena hwove => ?_
  have hinside :=
    (Wove.start { w1 with draft := w1.draft.synthetic "const " }).copy w.arena.size .declaration e
  refine ⟨harena, hwove.drop.wrap "const " ";" r.start .constTag hinside (by decide) (by decide)
    (.refl _) (fits_of_field (forall_mem_singleton.mpr nofun) nofun)⟩

variable {children : List Markup} {elseBranch : Option Branch} (hkids : NodesCover children)

include hkids

theorem ifBlock_covers (helse : ElseCovers elseBranch) (elseIf : Bool) :
    NodeCovers (.ifBlock r e elseIf children elseBranch) := by
  intro w n hn parent
  rw [Markup.count, Markup.embedded, node]
  subst hn
  refine alloc_put_expands _ r (place_expands parent)
    [⟨_, .markupIfBlock elseIf none [] none, r, .expression, e⟩]
    (forall_mem_singleton.mpr ⟨rfl, rfl, rfl⟩) (.start w) fun w1 harena1 hwove1 => ?_
  have hopen :=
    ((Wove.start { w1 with draft := w1.draft.synthetic "if (" }).copy w.arena.size .expression
    e).text ") \x7b\n" (by decide)
  refine offset_bind (synthetic_bind (copyFragment_bind (synthetic_bind ?_)))
  refine (hkids (by exact harena1.size) _).bind fun _ w2 hinner => ?_
  refine (helse (by rw [hinner.arena.size, harena1.size]) _).bind ?_
  rintro elseOwner w3 ⟨harena3, hwove3⟩
  have hall := hwove1.wrap "if (" "\x7d" r.start (.ifBlock w.arena.size elseOwner)
    ((hopen.trans hinner.draft).trans hwove3) (by decide) (by decide) (.of_eq (append_nil _))
    (fits_of_field (forall_mem_singleton.mpr nofun) nofun)
  refine ⟨(harena1.trans hinner.arena).trans harena3, hall.perm ?_⟩
  rw [map_cons, map_append (f := pending)]
  exact perm_append_singleton ..

theorem eachBlock_covers (helse : BranchCovers elseBranch) (context index key : Option Range) :
    NodeCovers (.eachBlock r e context index key children elseBranch) := by
  intro w n hn parent
  rw [Markup.count, Markup.embedded, node]
  subst hn
  let kind : Kind := .markupEachBlock none none none none [] none
  refine alloc_put_expands kind r (place_expands parent) (⟨w.arena.size, kind, r, .expression, e⟩ ::
    (option w.arena.size kind r .context context ++ option w.arena.size kind r .index index
      ++ option w.arena.size kind r .key key)) ?_ (.start w) fun w1 harena1 hwove1 => ?_
  · simp [option, show kind.blank = kind from rfl, or_imp, forall_and]
  have hopen :=
    ((Wove.start { w1 with draft := w1.draft.synthetic "Array.from(" }).copy w.arena.size
      .expression
    e).text ").forEach((" (by decide)
  refine offset_bind (synthetic_bind (copyFragment_bind (synthetic_bind ?_)))
  refine (eachParameters_wove _ context index hopen).bind ?_
  rintro ⟨params, placeholder⟩ w2 ⟨hsame2, hparams, _, hwove2⟩
  refine synthetic_bind
    ((wrapExpressions_wove _ (by simp) (hwove2.text ") => \x7b\n" (by decide))).bind ?_)
  rintro _ w3 ⟨hsame3, hwove3⟩
  have hsame := hsame3.1.trans hsame2.1
  rw [← hsame] at harena1
  refine (hkids harena1.size _).bind fun _ w4 hinner => ?_
  refine synthetic_bind (pushTask_bind (synthetic_bind ?_))
  have hw4 : w4.arena.size = w.arena.size + 1 + Markup.countList
      children := by rw [hinner.arena.size, harena1.size]
  refine (helse (by exact hw4) _ _ _).imp fun _ w5 hbranch => ?_
  have hinside : Wove (w1.draft.synthetic "Array.from(") w1.arena.size true []
      (((w1.draft.synthetic "Array.from(").copyFragment w.arena.size .expression e).1 :: params)
      (key.toList.map (⟨w.arena.size, .key, ·⟩) ++ _) w4 := hwove3.trans hinner.draft
  have hall :=
    (hwove1.wrap "Array.from(" "\x7d);" r.start (.eachBlock w.arena.size placeholder) hinside
    (by decide) (by decide) (.refl _) (fits_of_owner ?_ mem_cons_self ?_)).trans hbranch.draft
  · have hslots :
      (⟨w.arena.size, kind, r, .expression, e⟩ :: (option w.arena.size kind r .context context
        ++ option w.arena.size kind r .index index ++ option w.arena.size kind r .key key)).map pending =
        ⟨w.arena.size, .expression, e⟩ :: params.map Fragment.pending ++
          key.toList.map (⟨w.arena.size, .key, ·⟩) := by
      simp only [map_cons, map_append, map_pending_option, hparams]
      rfl
    rw [← append_assoc]
    refine ⟨(harena1.trans hinner.arena).trans hbranch.arena, hall.perm ?_⟩
    rw [map_append (f := pending), map_append (f := pending), hslots, nil_append]
    exact (perm_append_comm.trans (.of_eq (append_assoc ..).symm)).append_right _
  · rw [map_cons, hparams]
    simp [Fragment.pending, Draft.copyFragment, or_imp, forall_and]
  · rintro _ _ ⟨⟩
    rfl

theorem snippetBlock_covers (params : List Range) :
    NodeCovers (.snippetBlock r e params children) := by
  intro w n hn parent
  rw [Markup.count, Markup.embedded, node]
  subst hn
  let kind : Kind := .markupSnippetBlock none [] []
  refine alloc_put_expands kind r (place_expands parent) (⟨w.arena.size, kind, r, .id, e⟩ ::
    params.map (⟨w.arena.size, kind, r, .param, ·⟩)) ?_ (.start w) fun w1 harena1 hwove1 => ?_
  · simp [show kind.blank = kind from rfl]
  have hopen :=
    ((Wove.start { w1 with draft := w1.draft.synthetic "function " }).copy w.arena.size .id
    e).text "(" (by decide)
  refine offset_bind (synthetic_bind (copyFragment_bind (synthetic_bind ?_)))
  refine (copyList_wove _ hopen).bind ?_
  rintro fragments w2 ⟨hsame2, hparams, _, hwove2⟩
  have hsame := hsame2.1
  rw [← hsame] at harena1
  refine synthetic_bind ((hkids (by exact harena1.size) _).bind fun _ w3 hinner => ?_)
  have hall := hwove1.wrap "function " "\x7d" r.start (.snippet w.arena.size)
    ((hwove2.text ") \x7b\n" (by decide)).trans hinner.draft) (by decide) (by decide) (.refl _)
    (fits_of_owner ?_ mem_cons_self nofun)
  · refine ⟨harena1.trans hinner.arena, hall.perm ?_⟩
    rw [map_append (f := pending), map_cons, map_map, map_append, hparams]
    exact perm_append_comm
  · rw [map_append, hparams]
    simp [Fragment.pending, Draft.copyFragment]

end

mutual

theorem node_covers : (m : Markup) → NodeCovers m
  | .element _ _ _ _ _ children => element_covers (nodes_covers children) ..
  | .text r value => text_covers r value
  | .mustache .. | .renderTag .. => by
    intro w n hn parent
    rw [Markup.count, Markup.embedded, node]
    exact alloc_wrap_covers hn parent rfl fun w1 _ => .pure (.refl w1)
  | .ifBlock r test _ children elseBranch => ifBlock_covers r test (nodes_covers children)
    (ifElse_covers elseBranch) _
  | .eachBlock r e _ _ _ children elseBranch =>
    eachBlock_covers r e (nodes_covers children) (plainBranch_covers elseBranch) ..
  | .awaitBlock r e pending fulfilled rejected => by
    intro w n hn parent
    rw [Markup.count, Markup.embedded, node, Nat.add_assoc, Nat.add_assoc]
    refine alloc_wrap_covers hn parent rfl fun w1 hw1 => ?_
    refine (plainBranch_covers pending hw1 _ _ _).bind fun _ w2 hpend => ?_
    have hw2 : w2.arena.size = n + 1 + Branch.count pending := by rw [hpend.arena.size, hw1]
    refine (awaitBranch_covers hw2 _ _ rfl (by decide) fulfilled).bind fun _ w3 hfulfilled => ?_
    have hw3 : w3.arena.size = n + 1 + Branch.count pending + AwaitBranch.count fulfilled := by
      rw [hfulfilled.arena.size, hw2]
    refine (awaitBranch_covers hw3 _ _ rfl (by decide) rejected).imp fun _ w4 hrejected => ?_
    rw [← Nat.add_assoc]
    exact (hpend.trans hfulfilled).trans hrejected
  | .keyBlock r e children => by
    intro w n hn parent
    rw [Markup.count, Markup.embedded, node]
    exact alloc_wrap_covers hn parent rfl fun w1 hw1 => nodes_covers children hw1 _
  | .snippetBlock r name params children => snippetBlock_covers r name (nodes_covers children)
    params
  | .constTag r declaration => constTag_covers r declaration

theorem nodes_covers : (ms : List Markup) → NodesCover ms
  | [] => by
    intro w n hn parent
    rw [Markup.countList, Markup.embeddedList, nodes]
    exact .pure (.refl w)
  | m :: ms => by
    intro w n hn parent
    rw [Markup.countList, Markup.embeddedList, nodes]
    refine (node_covers m hn parent).bind fun _ w1 hm => ?_
    exact (nodes_covers ms (by rw [hm.arena.size, hn]) parent).imp fun _ _ hms => hm.trans hms

theorem ifElse_covers : (b : Option Branch) → ElseCovers b
  | none => by
    intro w n hn owner
    rw [Branch.count, Branch.embedded, ifElse]
    exact .pure ⟨.refl _, .start w⟩
  | some (.mk r children) => by
    intro w n hn owner
    rw [Branch.count, Branch.embedded, ifElse]
    refine alloc_put_expands _ r (link_expands owner _) [] (forall_mem_nil _) (.start w)
      fun w1 harena hwove => ?_
    have hw1 : w1.arena.size = n + 1 := by rw [harena.size, hn]
    refine synthetic_bind ((nodes_covers children (by exact hw1) _).bind fun _ w2 hinner => ?_)
    exact .pure ⟨harena.trans hinner.arena, (hwove.text _ (by decide)).trans hinner.draft⟩

theorem plainBranch_covers : (b : Option Branch) → BranchCovers b
  | none => by
    intro w n hn owner role kind
    rw [Branch.count, Branch.embedded, plainBranch]
    exact .pure (.refl w)
  | some (.mk r children) => by
    intro w n hn owner role kind
    rw [Branch.count, Branch.embedded, plainBranch]
    refine alloc_put_expands _ r (link_expands owner _) [] (forall_mem_nil _) (.start w)
      fun w1 harena hwove => ?_
    have hw1 : w1.arena.size = n + 1 := by rw [harena.size, hn]
    exact (nodes_covers children hw1 _).imp fun _ w2 hinner =>
      Covers.trans ⟨harena, hwove.drop⟩ hinner

theorem awaitBranch_covers {w : Weaver} {n : NodeId} (hn : w.arena.size = n) (owner : NodeId)
    (role : BranchRole) {kind : Kind} {field : SlotField} (hkind : kind.blank = kind)
    (hfield : field ≠ .param) :
    (b : Option AwaitBranch) → Ensures (awaitBranch owner role kind field b) w fun _ w' =>
      Covers (AwaitBranch.count b) (AwaitBranch.embedded n kind field b) w w'
  | none => by
    rw [AwaitBranch.count, AwaitBranch.embedded, awaitBranch]
    exact .pure (.refl w)
  | some (.mk r binding children) => by
    rw [AwaitBranch.count, AwaitBranch.embedded, awaitBranch]
    subst hn
    refine alloc_put_expands kind r (link_expands owner role)
      (option w.arena.size kind r field binding) ?_ (.start w) fun w1 harena hwove => ?_
    · simp [option, hkind]
    refine (wrapCallback_wove (Q := fun w' => Expands (Markup.countList children)
      (Markup.embeddedList (w.arena.size + 1) children) w1.arena w'.arena) hwove
        (by simpa using fun _ _ => hfield)
      (fun w2 hsame => (nodes_covers children (by rw [hsame.1, harena.size]) _).imp fun _ w' h =>
        ⟨hsame.1 ▸ h.arena, h.draft⟩) fun _ _ h => h).imp fun _ w' h => ⟨harena.trans h.1, ?_⟩
    rw [map_append, map_pending_option]
    exact h.2

end

/-! The whole document. -/

theorem scripts_sameTree (ss : List ScriptBlock) :
    Ensures (scripts ss) w fun _ w' => SameTree w w' ∧ w'.draft.tasks = w.draft.tasks := by
  induction ss generalizing w with
  | nil => exact ⟨⟨rfl, rfl⟩, rfl⟩
  | cons s ss ih => exact ih

end Weaving

/-- The script blocks in the order of the source. -/
def Template.Document.orderedScripts (d : Template.Document) : List Template.ScriptBlock :=
  d.scripts.mergeSort fun x y => x.content.start ≤ y.content.start

section Weave

variable (coords : Coordinates) (d : Template.Document) (arena : Arena)

/-- The state of weaving after the script blocks of a document. -/
def scripted : Weaver :=
  ((Weaving.scripts d.orderedScripts).run ⟨coords, arena, .ofSource coords.text, []⟩).2

/-- The markup is woven after the script blocks, and before the padding. -/
theorem weave_covers :
    ∃ w, Weaving.Covers (Template.Markup.countList d.nodes) (d.embedded arena.size)
    (scripted coords d arena) w ∧ (scripted coords d arena).arena = arena ∧
    weave coords d arena = ⟨w.arena, (w.draft.markSentinel.synthetic "\n;").finish, w.roots⟩ := by
  obtain ⟨⟨harena, -⟩, -⟩ : Weaving.SameTree _ (scripted coords d arena) ∧ _ :=
    Weaving.scripts_sameTree d.orderedScripts
  exact ⟨_, Weaving.nodes_covers d.nodes (congrArg size harena) none, harena, rfl⟩

/-- The tasks of a document are for the slots that it asks for. -/
theorem weave_plans : ∃ ts, (weave coords d arena).script.tasks.Perm ts ∧
    Plans [] ((d.embedded arena.size).map pending) arena.size (weave coords d arena).arena.size
      ts := by
  obtain ⟨w, ⟨-, ts, hweft, hplans⟩, harena, hweave⟩ := weave_covers coords d arena
  obtain ⟨-, htasks⟩ : _ ∧ (scripted coords d arena).draft.tasks = [] :=
    Weaving.scripts_sameTree d.orderedScripts
  have hmade : w.draft.tasks = ts := by rw [hweft.tasks_eq, htasks, nil_append]
  rw [harena] at hplans
  rw [hweave]
  refine ⟨ts, ?_, hplans⟩
  rw [← hmade]
  exact mergeSort_perm ..

/-- The fragments of a document are for the slots that it asks for. -/
theorem weave_fragments :
    ((taskFragments (weave coords d arena).script.tasks).map Fragment.pending).Perm
    ((d.embedded arena.size).map pending) := by
  obtain ⟨ts, htasks, hplans⟩ := weave_plans coords d arena
  exact ((htasks.flatMap_right _).map _).trans hplans.parts

/-- The nodes that a document asks slots of are those that weaving adds. -/
theorem weave_expands : Expands (Template.Markup.countList d.nodes) (d.embedded arena.size) arena
    (weave coords d arena).arena := by
  obtain ⟨w, hcovers, harena, hweave⟩ := weave_covers coords d arena
  have hexpands := hcovers.arena
  rw [harena] at hexpands
  rw [hweave]
  exact hexpands

/-- Every node of a document owns the scopes of one wrapper at most. -/
theorem weave_owners : ((weave coords d arena).script.tasks.flatMap (·.action.owners)).Nodup ∧
    ∀ o ∈ (weave coords d arena).script.tasks.flatMap (·.action.owners),
      o < (weave coords d arena).arena.size := by
  obtain ⟨ts, htasks, hplans⟩ := weave_plans coords d arena
  have hfresh := hplans.owners.left.perm (htasks.flatMap_right _).symm
  exact ⟨hfresh.nodup, fun o ho => (hfresh.within o ho).2⟩

/-- No slot of a document is planned twice, except for the parameters of a snippet. -/
theorem weave_slots_once : (taskFragments (weave coords d arena).script.tasks).Pairwise fun f f' =>
    f.slot = f'.slot → f.field = .param := by
  have honce : ((d.embedded arena.size).map pending).Pairwise fun p p' =>
      p.slot = p'.slot → p.field = .param :=
    pairwise_map.mpr (Template.Markup.numberedList arena.size d.nodes).once
  have hsymm : ∀ {p p' : Pending}, (p.slot = p'.slot → p.field = .param) → p'.slot = p.slot →
      p'.field = .param := by
    intro p p' h heq
    have hfield : p'.field = p.field := congrArg Prod.snd heq
    exact hfield.trans (h heq.symm)
  exact pairwise_map.mp (((weave_fragments coords d arena).pairwise_iff hsymm).mpr honce)

theorem weave_slotted :
    Slotted (weave coords d arena).arena.size (weave coords d arena).script.tasks := by
  obtain ⟨ts, htasks, hplans⟩ := weave_plans coords d arena
  refine .of_once (fun f hf => ?_) (weave_slots_once coords d arena) (weave_owners coords d arena).1
    fun t ht => hplans.fits t (htasks.mem_iff.mp ht)
  have hmem := (weave_fragments coords d arena).mem_iff.mp (mem_map_of_mem hf)
  obtain ⟨e, he, hpend⟩ := mem_map.mp hmem
  have howner : e.owner = f.owner := congrArg Pending.owner hpend
  exact howner ▸ ((weave_expands coords d arena).stands e he).1

end Weave

end Loom
