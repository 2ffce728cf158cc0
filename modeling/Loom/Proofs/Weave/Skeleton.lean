import Loom.Proofs.Weave.Plan

/-!
Skeletons: the markup nodes that a document becomes.

The skeleton of a construct tells the kind and the range of its node, the nodes that are made before
it and that it lists, and the nodes that are put under it one after the other. Weaving adds the
skeletons of a document to the arena, whatever text it weaves.
-/

namespace Loom

/-- The nodes of a construct. The role is that of a branch; other nodes go into the content of their
parent. -/
inductive Skeleton where
  | mk (role : Option BranchRole) (kind : Kind) (range : Range) (parts below : List Skeleton)

namespace Template

/-! The skeletons of attributes. -/

def AttributeValue.skeleton : AttributeValue → Skeleton
  | .text r value => .mk none (.markupText value) r [] []
  | .mustache r _ => .mk none (.markupMustacheTag false none) r [] []

def Attribute.skeleton : Attribute → Skeleton
  | .plain r name value => .mk none (.markupAttribute name []) r (value.map AttributeValue.skeleton)
    []
  | .shorthand r name _ => .mk none (.markupShorthandAttribute name none) r [] []
  | .spread r _ => .mk none (.markupSpreadAttribute none) r [] []
  | .directive d => .mk none (.markupDirective d.kind d.name d.modifiers none none) d.range [] []

mutual

/-- The skeleton of a construct. A text without a value has the text of its range. -/
def Markup.skeleton (coords : Coordinates) : Markup → Skeleton
  | .element name kind r _ attributes children =>
    .mk none (.markupElement name kind none [] []) r (attributes.map Attribute.skeleton)
      (Markup.skeletons coords children)
  | .text r value => .mk none (.markupText (if value.isEmpty then coords.slice r else value)) r []
    []
  | .mustache r _ raw => .mk none (.markupMustacheTag raw none) r [] []
  | .ifBlock r _ elseIf children elseBranch =>
    .mk none (.markupIfBlock elseIf none [] none) r []
      (Markup.skeletons coords children ++ Branch.skeletons coords .otherwise (.markupElseBlock []) elseBranch)
  | .eachBlock r _ _ _ _ children elseBranch =>
    .mk none (.markupEachBlock none none none none [] none) r []
      (Markup.skeletons coords children ++ Branch.skeletons coords .otherwise (.markupElseBlock []) elseBranch)
  | .awaitBlock r _ pending fulfilled rejected =>
    .mk none (.markupAwaitBlock none none none none) r []
      (Branch.skeletons coords .pending (.markupAwaitPendingBlock []) pending
        ++ (AwaitBranch.skeletons coords .fulfilled (.markupAwaitThenBlock none []) fulfilled
          ++ AwaitBranch.skeletons coords .rejected (.markupAwaitCatchBlock none []) rejected))
  | .keyBlock r _ children => .mk none (.markupKeyBlock none []) r []
    (Markup.skeletons coords children)
  | .snippetBlock r _ _ children =>
    .mk none (.markupSnippetBlock none [] []) r [] (Markup.skeletons coords children)
  | .constTag r _ => .mk none (.markupConstTag none) r [] []
  | .renderTag r _ => .mk none (.markupRenderTag none) r [] []

def Markup.skeletons (coords : Coordinates) : List Markup → List Skeleton
  | [] => []
  | m :: ms => m.skeleton coords :: Markup.skeletons coords ms

/-- The node of a branch, where there is one. -/
def Branch.skeletons (coords : Coordinates) (role : BranchRole) (kind : Kind) :
    Option Branch → List Skeleton
  | none => []
  | some (.mk r children) => [.mk (some role) kind r [] (Markup.skeletons coords children)]

def AwaitBranch.skeletons (coords : Coordinates) (role : BranchRole) (kind : Kind) :
    Option AwaitBranch → List Skeleton
  | none => []
  | some (.mk r _ children) => [.mk (some role) kind r [] (Markup.skeletons coords children)]

end

end Template

/-- Puts a node under another one: as the branch of its role, or after the content. -/
def Arena.put (a : Arena) (role : Option BranchRole) (id : NodeId) : Option NodeId → Arena
  | none => a
  | some p =>
    match role with
    | none => (a.pushChild p id).2
    | some role => (a.setKind p ((a.kind p).setBranch id role)).setParent id (some p)

/-- The kind that lists the parts made before its node. -/
def Kind.setParts (ids : List NodeId) : Kind → Kind
  | .markupElement name kind nameExpression _ children =>
    .markupElement name kind nameExpression ids children
  | .markupAttribute key _ => .markupAttribute key ids
  | k => k

namespace Skeleton

mutual

/-- Adds the nodes of a skeleton to an arena, and tells the node that was put under `parent`. -/
def plant (coords : Coordinates) (parent : Option NodeId) : Skeleton → Arena → NodeId × Arena
  | .mk role kind r parts below, a =>
    let made := plantAll coords none parts a
    let node := made.2.allocAt (kind.setParts made.1) r coords
    (node.1, (plantAll coords (some node.1) below (node.2.put role node.1 parent)).2)

def plantAll (coords : Coordinates) (parent : Option NodeId) :
    List Skeleton → Arena → List NodeId × Arena
  | [], a => ([], a)
  | t :: ts, a =>
    let first := t.plant coords parent a
    let rest := plantAll coords parent ts first.2
    (first.1 :: rest.1, rest.2)

end

variable {coords : Coordinates} {parent : Option NodeId}

theorem plantAll_append (ts ts' : List Skeleton) (a : Arena) :
    plantAll coords parent (ts ++ ts') a =
      ((plantAll coords parent ts a).1 ++ (plantAll coords parent ts' (plantAll coords parent ts a).2).1,
        (plantAll coords parent ts' (plantAll coords parent ts a).2).2) := by
  induction ts generalizing a with
  | nil => simp [plantAll]
  | cons t ts ih => simp [plantAll, ih]

/-- Adds skeletons to the tree part of a state; without a parent they become roots. -/
def sow (parent : Option NodeId) (ts : List Skeleton) :
    Coordinates × Arena × List NodeId → Coordinates × Arena × List NodeId
  | (coords, a, roots) =>
    let (ids, a) := plantAll coords parent ts a
    (coords, a, if parent = none then roots ++ ids else roots)

theorem sow_append (ts ts' : List Skeleton) (g : Coordinates × Arena × List NodeId) :
    sow parent (ts ++ ts') g = sow parent ts' (sow parent ts g) := by
  simp only [sow, plantAll_append]
  split <;> simp

end Skeleton

namespace Weaving

open Template

variable {w : Weaver} {parent : Option NodeId}

/-- The tree part of a state. -/
def tree (w : Weaver) : Coordinates × Arena × List NodeId := (w.coords, w.arena, w.roots)

theorem tree_wrapExpressions (ps : List Pending) :
    tree ((wrapExpressions ps).run w).2 = tree w := by
  induction ps generalizing w with
  | nil => rfl
  | cons p ps ih => exact ih

theorem tree_copyMore (ps : List Pending) : tree ((copyMore ps).run w).2 = tree w := by
  induction ps generalizing w with
  | nil => rfl
  | cons p ps ih => exact ih

theorem tree_copyList (ps : List Pending) : tree ((copyList ps).run w).2 = tree w := by
  cases ps with
  | nil => rfl
  | cons p ps => exact tree_copyMore ps

theorem tree_scripts (ss : List ScriptBlock) : tree ((scripts ss).run w).2 = tree w := by
  induction ss generalizing w with
  | nil => rfl
  | cons s ss ih => exact ih

theorem tree_eachParameters (id : NodeId) (context index : Option Range) :
    tree ((eachParameters id context index).run w).2 = tree w := by
  cases context <;> cases index <;> rfl

/-! The parts of attributes and the attributes are added before the nodes that list them. -/

/-- The nodes `ids` of skeletons were added, and are not put anywhere yet. -/
def Adds (ts : List Skeleton) (ids : List NodeId) (w w' : Weaver) : Prop :=
  Skeleton.plantAll w.coords none ts w.arena = (ids, w'.arena) ∧ w'.coords = w.coords ∧
    w'.roots = w.roots

theorem Adds.trans {ts ts' : List Skeleton} {ids ids' : List NodeId} {w1 w' : Weaver}
    (h : Adds ts ids w w1) (h' : Adds ts' ids' w1 w') : Adds (ts ++ ts') (ids ++ ids') w w' := by
  obtain ⟨hids, hcoords, hroots⟩ := h
  obtain ⟨hids', hcoords', hroots'⟩ := h'
  rw [hcoords] at hids'
  refine ⟨?_, hcoords'.trans hcoords, hroots'.trans hroots⟩
  rw [Skeleton.plantAll_append, hids, hids']

theorem attributeValue_adds (v : AttributeValue) :
    Ensures (attributeValue v) w fun x w' => Adds [v.skeleton] [x.1] w w' := by
  cases v <;> exact ⟨rfl, rfl, rfl⟩

theorem attributeValues_adds (vs : List AttributeValue) :
    Ensures (attributeValues vs) w fun x w' => Adds (vs.map AttributeValue.skeleton) x.1 w w' := by
  induction vs generalizing w with
  | nil => exact ⟨rfl, rfl, rfl⟩
  | cons v vs ih =>
    refine (attributeValue_adds v).bind ?_
    rintro ⟨id, pending⟩ w1 h
    refine ih.bind ?_
    rintro ⟨ids, more⟩ w2 h'
    exact h.trans h'

theorem attributeNode_adds (x : Attribute) :
    Ensures (attributeNode x) w fun y w' => Adds [x.skeleton] [y.id] w w' := by
  cases x with
  | plain r name value =>
    refine (attributeValues_adds value).bind ?_
    rintro ⟨ids, pending⟩ w1 ⟨hids, hcoords, hroots⟩
    refine ⟨?_, hcoords, hroots⟩
    rw [← hcoords] at hids ⊢
    simp only [Skeleton.plantAll, Attribute.skeleton, Skeleton.plant, hids]
    rfl
  | _ => exact ⟨rfl, rfl, rfl⟩

theorem attributeNodes_adds (xs : List Attribute) :
    Ensures (attributeNodes xs) w fun ys w' => Adds (xs.map Attribute.skeleton) (ys.map (·.id)) w
      w' := by
  induction xs generalizing w with
  | nil => exact ⟨rfl, rfl, rfl⟩
  | cons x xs ih =>
    refine (attributeNode_adds x).bind ?_
    rintro y w1 h
    refine ih.bind ?_
    rintro ys w2 h'
    exact h.trans h'

/-! Markup. -/

/-- A program that adds skeletons, which may depend on the coordinates, under `parent`. -/
def Sows {α : Type} (parent : Option NodeId) (ts : Coordinates → List Skeleton) (m : Weaving α) :
    Prop :=
  ∀ w, tree (m.run w).2 = Skeleton.sow parent (ts w.coords) (tree w)

namespace Sows

variable {α β : Type} {m : Weaving α} {f : α → Weaving β} {ts ts' : Coordinates → List Skeleton}

theorem nothing (h : ∀ w, tree (m.run w).2 = tree w) : Sows parent (fun _ => []) m := fun w =>
  (h w).trans (by simp [Skeleton.sow, Skeleton.plantAll])

theorem bind (h : Sows parent ts m) (h' : ∀ x, Sows parent ts' (f x)) :
    Sows parent (fun c => ts c ++ ts' c) (m >>= f) := by
  intro w
  have hcoords : (m.run w).2.coords = w.coords := congrArg Prod.fst (h w)
  have hall := h' (m.run w).1 (m.run w).2
  rw [h w, hcoords, ← Skeleton.sow_append] at hall
  exact hall

/-- Text before the nodes. -/
theorem text (ht : ∀ w, tree (m.run w).2 = tree w) (h : ∀ x, Sows parent ts (f x)) :
    Sows parent ts (m >>= f) :=
  (nothing ht).bind h

/-- Text after the nodes. -/
theorem finish (h : Sows parent ts m) (ht : ∀ x w, tree ((f x).run w).2 = tree w) :
    Sows parent ts (m >>= f) := by
  have hall := h.bind fun x => nothing (ht x)
  simpa only [List.append_nil] using hall

theorem callback {owner : NodeId} {anchor : Nat} {params : List Pending} {content : Weaving Unit}
    (h : Sows parent ts content) : Sows parent ts (wrapCallback owner anchor params content) :=
  .text (fun _ => rfl) fun _ => .text (fun _ => rfl) fun _ => .text (fun _ => tree_copyList _)
    fun _ => .text (fun _ => rfl) fun _ => h.finish fun _ _ => rfl

/-- A new node, after the nodes that it lists, and its content. -/
theorem grow {p : Option NodeId} {k : Kind} {r : Range} {parts : List Skeleton}
    {ids : α → List NodeId}
    {g : α → NodeId → Weaving β} (hparts : ∀ w, Ensures m w fun x w' => Adds parts (ids x) w w')
    (h : ∀ x id, Sows (some id) ts (g x id)) :
    Sows p (fun c => [.mk none k r parts (ts c)])
      (do let x ← m; let id ← alloc (k.setParts (ids x)) r; Weaving.place p id; g x id) := by
  intro w
  obtain ⟨hids, hcoords, hroots⟩ := hparts w
  rw [← hcoords] at hids
  have hrest := fun w1 => h (m.run w).1 (m.run w).2.arena.size w1
  cases p
  all_goals
    refine (hrest _).trans ?_
    simp only [Skeleton.sow, Skeleton.plantAll, Skeleton.plant, tree, hids, ← hcoords, ← hroots]
    rfl

theorem place {k : Kind} {r : Range} {f : NodeId → Weaving β} (hk : k.setParts [] = k)
    (h : ∀ id, Sows (some id) ts (f id)) :
    Sows parent (fun c => [.mk none k r [] (ts c)])
      (do let id ← alloc k r; Weaving.place parent id; f id) := by
  have hnone : ∀ w, Ensures (pure ()) w fun _ w' => Adds [] [] w w' := fun _ => ⟨rfl, rfl, rfl⟩
  have hgrow := grow (k := k) (r := r) (p := parent) hnone fun _ => h
  rw [hk] at hgrow
  exact hgrow

theorem link {k : Kind} {r : Range} {owner : NodeId} {role : BranchRole} {f : NodeId → Weaving β}
    (hk : k.setParts [] = k) (h : ∀ id, Sows (some id) ts (f id)) :
    Sows (some owner) (fun c => [.mk (some role) k r [] (ts c)])
      (do let id ← alloc k r; Weaving.link owner role id; f id) := by
  intro w
  refine (h w.arena.size _).trans ?_
  simp only [Skeleton.sow, Skeleton.plantAll, Skeleton.plant, hk]
  rfl

end Sows

mutual

theorem node_sows (parent : Option NodeId) :
    (m : Markup) → Sows parent (fun c => [m.skeleton c]) (node parent m)
  | .element name kind r nameRange attributes children => by
    rw [node]
    refine .grow (fun _ => attributeNodes_adds attributes) fun woven id =>
      .text (fun _ => tree_wrapExpressions _) fun _ => .text (fun _ => tree_wrapExpressions _) fun _ => ?_
    dsimp only
    split
    · exact nodes_sows (some id) children
    · exact .callback (nodes_sows (some id) children)
  | .text r value => by
    rw [node]
    intro w
    cases parent <;> rfl
  | .mustache r e raw => by
    rw [node]
    exact .place rfl fun id => .nothing fun _ => rfl
  | .ifBlock r test elseIf children elseBranch => by
    rw [node]
    refine .place rfl fun id => .text (fun _ => rfl) fun start => .text (fun _ => rfl) fun _ =>
      .text (fun _ => rfl) fun fragment => .text (fun _ => rfl) fun _ => ?_
    exact (nodes_sows (some id) children).bind fun _ => (ifElse_sows id elseBranch).finish
      fun _ _ => rfl
  | .eachBlock r e context index key children elseBranch => by
    rw [node]
    refine .place rfl fun id => .text (fun _ => rfl) fun start => .text (fun _ => rfl) fun _ =>
      .text (fun _ => rfl) fun fragment => .text (fun _ => rfl) fun _ =>
      .text (fun _ => tree_eachParameters ..) fun params => .text (fun _ => rfl) fun _ =>
      .text (fun _ => tree_wrapExpressions _) fun _ => ?_
    exact (nodes_sows (some id) children).bind fun _ => .text (fun _ => rfl)
      fun _ => .text (fun _ => rfl) fun _ =>
      .text (fun _ => rfl) fun _ => plainBranch_sows id .otherwise rfl elseBranch
  | .awaitBlock r e pending fulfilled rejected => by
    rw [node]
    refine .place rfl fun id => .text (fun _ => rfl) fun _ => ?_
    exact (plainBranch_sows id .pending rfl pending).bind fun _ =>
      (awaitBranch_sows id .fulfilled rfl .value fulfilled).bind fun _ =>
      awaitBranch_sows id .rejected rfl .error rejected
  | .keyBlock r e children => by
    rw [node]
    exact .place rfl fun id => .text (fun _ => rfl) fun _ => nodes_sows (some id) children
  | .snippetBlock r name params children => by
    rw [node]
    refine .place rfl fun id => .text (fun _ => rfl) fun start => .text (fun _ => rfl) fun _ =>
      .text (fun _ => rfl) fun fragment => .text (fun _ => rfl) fun _ =>
      .text (fun _ => tree_copyList _) fun fragments => .text (fun _ => rfl) fun _ => ?_
    exact (nodes_sows (some id) children).finish fun _ _ => rfl
  | .constTag r declaration => by
    rw [node]
    exact .place rfl fun id => .nothing fun _ => rfl
  | .renderTag r e => by
    rw [node]
    exact .place rfl fun id => .nothing fun _ => rfl

theorem nodes_sows (parent : Option NodeId) : (ms : List Markup) →
    Sows parent (Markup.skeletons · ms) (nodes parent ms)
  | [] => by
    rw [nodes]
    exact .nothing fun _ => rfl
  | m :: ms => by
    rw [nodes]
    exact (node_sows parent m).bind fun _ => nodes_sows parent ms

theorem ifElse_sows (owner : NodeId) : (b : Option Branch) →
    Sows (some owner) (Branch.skeletons · .otherwise (.markupElseBlock []) b) (ifElse owner b)
  | none => by
    rw [ifElse]
    exact .nothing fun _ => rfl
  | some (.mk r children) => by
    rw [ifElse]
    exact .link rfl fun id => .text (fun _ => rfl) fun _ =>
      (nodes_sows (some id) children).finish fun _ _ => rfl

theorem plainBranch_sows (owner : NodeId) (role : BranchRole) {kind : Kind}
    (hkind : kind.setParts [] = kind) :
    (b : Option Branch) → Sows (some owner) (Branch.skeletons · role kind b)
      (plainBranch owner role kind b)
  | none => by
    rw [plainBranch]
    exact .nothing fun _ => rfl
  | some (.mk r children) => by
    rw [plainBranch]
    exact .link hkind fun id => nodes_sows (some id) children

theorem awaitBranch_sows (owner : NodeId) (role : BranchRole) {kind : Kind}
    (hkind : kind.setParts [] = kind) (field : SlotField) : (b : Option AwaitBranch) →
    Sows (some owner) (AwaitBranch.skeletons · role kind b) (awaitBranch owner role kind field b)
  | none => by
    rw [awaitBranch]
    exact .nothing fun _ => rfl
  | some (.mk r binding children) => by
    rw [awaitBranch]
    exact .link hkind fun id => .callback (nodes_sows (some id) children)

end

theorem document_sows (d : Document) : Sows none (Markup.skeletons · d.nodes) (document d) :=
  .text (fun _ => tree_scripts _) fun _ => (nodes_sows none d.nodes).finish fun _ _ => rfl

end Weaving

/-- The nodes that weaving adds are those of the skeletons. -/
theorem weave_eq_plantAll (coords : Coordinates) (d : Template.Document) (a : Arena) :
    ((weave coords d a).roots, (weave coords d a).arena) =
      Skeleton.plantAll coords none (Template.Markup.skeletons coords d.nodes) a := by
  have htree := Weaving.document_sows d ⟨coords, a, .ofSource coords.text, []⟩
  exact congrArg (fun g => (g.2.2, g.2.1)) htree

end Loom
