import Loom.Proofs.Weave.Forest
import Loom.Proofs.Weave.Skeleton

/-!
The markup nodes of a document form trees whose tops are the roots, and these trees are the
skeletons of the document.

No step of planting touches older nodes, other than the one that it puts a node under. The nodes of
a skeleton are numbered in the order in which they are added, so the arena can be read off the
skeletons.
-/

open List

namespace Loom

open Arena Skeleton Template.Markup

variable {coords : Coordinates} {parent : Option NodeId} {a a1 a' b : Arena} {id : NodeId}
  {t : Skeleton} {ts ts' : List Skeleton}

namespace Skeleton

variable {tops : List NodeId}

def role : Skeleton → Option BranchRole
  | .mk role .. => role

/-! The arena that skeletons describe. -/

mutual

def count : Skeleton → Nat
  | .mk _ _ _ parts below => countAll parts + 1 + countAll below

def countAll : List Skeleton → Nat
  | [] => 0
  | t :: ts => t.count + countAll ts

end

/-- The number of the node of a skeleton whose nodes are numbered from `n`. -/
def number (n : Nat) : Skeleton → NodeId
  | .mk _ _ _ parts _ => n + countAll parts

def numbers (n : Nat) : List Skeleton → List NodeId
  | [] => []
  | t :: ts => t.number n :: numbers (n + t.count) ts

/-- The kind of a node after skeletons, numbered from `n`, were put under it one after the other. -/
def putAll (n : Nat) : List Skeleton → Kind → Kind
  | [], k => k
  | t :: ts, k => putAll (n + t.count) ts (k.put (t.number n) t.role)

mutual

/-- The nodes from `n` on are those of the skeleton: each has its range and its kind, and lists its
parts, its content and its branches in their order. -/
def Mirrored (a : Arena) (n : Nat) : Skeleton → Prop
  | .mk _ kind r parts below =>
    a.range (n + countAll parts) = r ∧
    a.kind (n + countAll parts) = putAll (n + countAll parts + 1) below
      (kind.setParts (numbers n parts)) ∧
    MirroredAll a n parts ∧ MirroredAll a (n + countAll parts + 1) below

def MirroredAll (a : Arena) (n : Nat) : List Skeleton → Prop
  | [] => True
  | t :: ts => t.Mirrored a n ∧ MirroredAll a (n + t.count) ts

end

/-! Skeletons that can be planted. -/

mutual

/-- A node lists its parts and nothing else when it is made, and it has room for what is put under
it. -/
def Fits : Skeleton → Prop
  | .mk _ kind _ parts below =>
    (∀ ids, (parts = [] → ids = []) → (kind.setParts ids).childIds = ids ∧
      (∀ field, (kind.setParts ids).held field = []) ∧ ∀ t ∈ below,
      (kind.setParts ids).HasRoom t.role) ∧
    below.Pairwise (fun t t' => t.role = none ∨ t.role ≠ t'.role) ∧ FitAll parts ∧ FitAll below

def FitAll : List Skeleton → Prop
  | [] => True
  | t :: ts => t.Fits ∧ FitAll ts

end

end Skeleton

/-! Putting a node under another one. -/

namespace Arena

variable {role : Option BranchRole} {p i : NodeId}

theorem put_some (h : (a.kind p).HasRoom role) :
    a.put role id (some p) = (a.setKind p ((a.kind p).put id role)).setParent id (some p) := by
  cases role with
  | none =>
    show (a.pushChild p id).2 = _
    rw [pushChild, h.pushChild? id]
  | some role => rfl

theorem relinked_put : Relinked id a (a.put role id parent) := by
  cases parent with
  | none => exact .refl
  | some p =>
    cases role with
    | none => exact .pushChild p id
    | some role => exact .link

theorem kept_put : Kept parent a (a.put role id parent) := by
  cases parent with
  | none => exact .refl ..
  | some p =>
    refine ⟨Nat.le_of_eq relinked_put.size.symm, fun i _ hsome => ?_,
      fun i _ => relinked_put.range i⟩
    have hne : i ≠ p := fun heq => hsome (congrArg some heq)
    cases role <;> simp [put, kind_pushChild_ne _ hne, kind_setKind_ne hne]

end Arena

theorem Forest.put {a a1 : Arena} {tops : List NodeId} {role : Option BranchRole}
    {parent : Option NodeId} {id : NodeId}
    (hforest : Forest a tops) (hkept : Kept none a a1) (hloose : Forest a1 (tops ++ [id]))
    (hparent : ∀ p ∈ parent, p < a.size ∧ (a.kind p).HasRoom role) :
    Forest (a1.put role id parent) (tops ++ if parent = none then [id] else []) := by
  cases parent with
  | none => exact hloose
  | some p =>
    obtain ⟨hp, hroom⟩ := hparent p rfl
    rw [← hkept.kind p hp nofun] at hroom
    obtain ⟨t, ht, hbelow⟩ := hforest.covered p hp
    have hcovered : ∃ t ∈ tops, a1.Below t p :=
      ⟨t, ht, hkept.below hforest (hforest.top_lt t ht) hbelow⟩
    have hresult := hloose.adopt (Nat.lt_of_lt_of_le hp hkept.size) hcovered (hroom.childIds_put id)
      (hroom.held_put id)
    rw [put_some hroom, if_neg nofun, append_nil]
    exact hresult

namespace Skeleton

/-- Skeletons were put under `parent`, or left without one. What they are can be read off every
arena that agrees on the new nodes. -/
structure Planted (parent : Option NodeId) (ts : List Skeleton) (a a' : Arena) : Prop where
  size : a'.size = a.size + countAll ts
  kept : Kept parent a a'
  under : ∀ p ∈ parent, a'.kind p = putAll a.size ts (a.kind p)
  forest : ∀ tops,
    Forest a tops → Forest a' (tops ++ if parent = none then numbers a.size ts else [])
  mirrored : ∀ b : Arena,
    (∀ i, a.size ≤ i → i < a'.size → b.kind i = a'.kind i ∧ b.range i = a'.range i) →
    MirroredAll b a.size ts

theorem Planted.nil : Planted parent [] a a := by
  refine ⟨rfl, .refl _ _, fun _ _ => rfl, fun tops h => ?_, fun _ _ => trivial⟩
  rwa [numbers, ite_self, append_nil]

theorem Planted.cons (h : Planted parent [t] a a1) (h' : Planted parent ts a1 a')
    (hparent : ∀ p ∈ parent, p < a.size) : Planted parent (t :: ts) a a' := by
  have hsize : a1.size = a.size + t.count := h.size
  constructor
  case size => rw [h'.size, hsize, countAll, Nat.add_assoc]
  case kept => exact h.kept.trans h'.kept
  case under =>
    intro p hp
    rw [h'.under p hp, h.under p hp, hsize]
    rfl
  case forest =>
    intro tops hforest
    have hall := h'.forest _ (h.forest tops hforest)
    rw [hsize, append_assoc] at hall
    by_cases hnone : parent = none
    · rw [if_pos hnone, if_pos hnone] at hall
      rw [if_pos hnone]
      exact hall
    · rw [if_neg hnone, if_neg hnone] at hall
      rw [if_neg hnone]
      exact hall
  case mirrored =>
    intro b hb
    refine ⟨(h.mirrored b fun i hle hlt => ?_).1, hsize ▸ h'.mirrored b fun i hle hlt => ?_⟩
    · have hne : some i ≠ parent := fun heq => Nat.not_lt_of_le hle (hparent i heq.symm)
      rw [← h'.kept.kind i hlt hne, ← h'.kept.range i hlt]
      exact hb i hle (Nat.lt_of_lt_of_le hlt h'.kept.size)
    · exact hb i (Nat.le_trans h.kept.size hle) hlt

/-- A new node that was put in its place. -/
theorem kind_alloc_put (coords : Coordinates) (k : Kind) (r : Range) (role : Option BranchRole)
    (hparent : ∀ p ∈ parent, p < a.size) :
    ((a.allocAt k r coords).2.put role a.size parent).kind a.size = k ∧
      ((a.allocAt k r coords).2.put role a.size parent).range a.size = r := by
  have hlt : a.size < (a.allocAt k r coords).2.size := by
    rw [size_allocAt]
    exact Nat.lt_succ_self _
  have hput : Kept parent (a.allocAt k r coords).2
      ((a.allocAt k r coords).2.put role a.size parent) := kept_put
  have hne : some a.size ≠ parent := fun heq => Nat.lt_irrefl _ (hparent _ heq.symm)
  rw [hput.kind _ hlt hne, hput.range _ hlt, kind_allocAt, range_allocAt]
  exact ⟨if_pos rfl, if_pos rfl⟩

/-- A node after its parts, with what is put under it. -/
theorem Planted.node {role : Option BranchRole} {kind k : Kind} {r : Range}
    {parts below : List Skeleton}
    (hk : kind.setParts (numbers a.size parts) = k) (hparts : Planted none parts a a1)
    (hkids : k.childIds = numbers a.size parts) (hblank : ∀ field, k.held field = [])
    (hparent : ∀ p ∈ parent, p < a.size ∧ (a.kind p).HasRoom role)
    (hbelow : Planted (some a1.size) below ((a1.allocAt k r coords).2.put role a1.size parent) a') :
    Planted parent [.mk role kind r parts below] a a' := by
  have hid : a1.size = a.size + countAll parts := hparts.size
  have hle : a.size ≤ a1.size := hparts.kept.size
  have hlt := fun p hp => Nat.lt_of_lt_of_le (hparent p hp).1 hle
  obtain ⟨hkind, hrange⟩ := kind_alloc_put coords k r role hlt
  have halloc : Kept none a (a1.allocAt k r coords).2 := hparts.kept.trans (.allocAt k r coords)
  have hput : Kept parent (a1.allocAt k r coords).2
      ((a1.allocAt k r coords).2.put role a1.size parent) :=
    kept_put
  have hafter : Kept parent a1 a' :=
    ((Kept.allocAt k r coords).mono.trans hput).nest hbelow.kept (Nat.le_refl _)
  have hsize : ((a1.allocAt k r coords).2.put role a1.size parent).size = a1.size + 1 := by
    rw [relinked_put.size, size_allocAt]
  constructor
  case size =>
    rw [hbelow.size]
    simp only [countAll, count]
    omega
  case kept => exact hparts.kept.mono.trans hafter
  case under =>
    intro p hp
    obtain ⟨hp', hroom⟩ := hparent p hp
    have hlt' : p < (a1.allocAt k r coords).2.size := Nat.lt_of_lt_of_le hp' halloc.size
    have hne : some p ≠ some a1.size := fun heq => Nat.ne_of_lt (hlt p hp) (Option.some.inj heq)
    obtain rfl : parent = some p := hp
    rw [← halloc.kind p hp' nofun] at hroom ⊢
    rw [hbelow.kept.kind p (Nat.lt_of_lt_of_le hlt' hput.size) hne, put_some hroom, kind_setParent,
      kind_setKind, if_pos ⟨rfl, hlt'⟩, hid]
    rfl
  case forest =>
    intro tops hforest
    have hloose := hparts.forest tops hforest
    rw [← hkids] at hloose
    have hall := hbelow.forest _ (hforest.put halloc (hloose.alloc r coords hblank) hparent)
    simp only [reduceCtorEq, if_false, append_nil, hid] at hall
    exact hall
  case mirrored =>
    intro b hb
    obtain ⟨hkind', hrange'⟩ := hb a1.size hle (by rw [hbelow.size]; omega)
    rw [hbelow.under _ rfl, hkind, hsize, ← hk, hid] at hkind'
    rw [hbelow.kept.range _ (by omega), hrange, hid] at hrange'
    refine ⟨⟨hrange', hkind', hparts.mirrored b fun i hi hlt' => ?_, ?_⟩, trivial⟩
    · have hne : some i ≠ parent := fun heq => Nat.not_lt_of_le hi (hparent i heq.symm).1
      rw [← hafter.kind i hlt' hne, ← hafter.range i hlt']
      exact hb i hi (Nat.lt_of_lt_of_le hlt' hafter.size)
    · rw [← hid, ← hsize]
      exact hbelow.mirrored b fun i hi hlt' => hb i (by omega) hlt'

mutual

/-- The node is made after its parts, put in its place, and then takes what is below it. -/
theorem plant_planted (coords : Coordinates) {a : Arena} (parent : Option NodeId) :
    (t : Skeleton) → t.Fits → (∀ p ∈ parent, p < a.size ∧ (a.kind p).HasRoom t.role) →
    (t.plant coords parent a).1 = t.number a.size ∧ Planted parent [t] a (t.plant coords parent a).2
  | .mk role kind r parts below, ⟨hown, hroles, hfitParts, hfitBelow⟩, hparent => by
    obtain ⟨hids, hparts⟩ := plantAll_planted coords (a := a) none parts hfitParts nofun
    obtain ⟨hkids, hblank, hroom⟩ := hown (numbers a.size parts) (by rintro rfl; rfl)
    obtain ⟨hkind, -⟩ := kind_alloc_put coords (kind.setParts (numbers a.size parts)) r role
      fun p hp => Nat.lt_of_lt_of_le (hparent p hp).1 hparts.kept.size
    obtain ⟨-, hbelow⟩ :=
      plantAll_planted coords (some (plantAll coords none parts a).2.size) below hfitBelow
      (a := ((plantAll coords none parts a).2.allocAt (kind.setParts (numbers a.size parts)) r coords).2.put role
        (plantAll coords none parts a).2.size parent) (by
        rintro _ ⟨⟩
        rw [hkind, relinked_put.size, size_allocAt]
        exact ⟨Nat.lt_succ_self _, hroom, hroles⟩)
    rw [plant, hids]
    exact ⟨hparts.size, .node rfl hparts hkids hblank hparent hbelow⟩

theorem plantAll_planted (coords : Coordinates) {a : Arena} (parent : Option NodeId) :
    (ts : List Skeleton) → FitAll ts →
    (∀ p ∈ parent, p < a.size ∧ (∀ t ∈ ts, (a.kind p).HasRoom t.role) ∧
      ts.Pairwise fun t t' => t.role = none ∨ t.role ≠ t'.role) →
    (plantAll coords parent ts a).1 = numbers a.size ts ∧
      Planted parent ts a (plantAll coords parent ts a).2
  | [], _, _ => ⟨rfl, .nil⟩
  | t :: ts, ⟨hfit, hfits⟩, hparent => by
    obtain ⟨hid, ht⟩ := plant_planted coords parent t hfit fun p hp =>
      ⟨(hparent p hp).1, (hparent p hp).2.1 t mem_cons_self⟩
    have hsize := ht.size
    obtain ⟨hids, hts⟩ :=
      plantAll_planted coords (a := (t.plant coords parent a).2) parent ts hfits fun p hp => by
      obtain ⟨hlt, hroom, hroles⟩ := hparent p hp
      obtain ⟨hrole, hroles⟩ := pairwise_cons.mp hroles
      refine ⟨Nat.lt_of_lt_of_le hlt ht.kept.size, fun t' ht' => ?_, hroles⟩
      rw [ht.under p hp]
      exact (hroom t mem_cons_self).put (hroom t' (mem_cons_of_mem t ht')) (hrole t' ht') _
    rw [hsize] at hids
    exact ⟨congrArg₂ List.cons hid hids, ht.cons hts fun p hp => (hparent p hp).1⟩

end

/-! The skeletons of a document can be planted. -/

/-- There is room in a kind for skeletons that are put under it one after the other. -/
structure Takes (k : Kind) (ts : List Skeleton) : Prop where
  room : ∀ t ∈ ts, k.HasRoom t.role
  roles : ts.Pairwise fun t t' => t.role = none ∨ t.role ≠ t'.role
  fits : FitAll ts

theorem Takes.nil {k : Kind} : Takes k [] := ⟨nofun, .nil, trivial⟩

theorem FitAll.append (h : FitAll ts) (h' : FitAll ts') : FitAll (ts ++ ts') := by
  induction ts with
  | nil => exact h'
  | cons t ts ih => exact ⟨h.1, ih h.2⟩

theorem Takes.append {k : Kind} (h : Takes k ts) (h' : Takes k ts')
    (hne : ∀ t ∈ ts, t.role = none ∨ ∀ t' ∈ ts', t.role ≠ t'.role) : Takes k (ts ++ ts') :=
  ⟨forall_mem_append.mpr ⟨h.room, h'.room⟩,
    pairwise_append.mpr ⟨h.roles, h'.roles, fun t ht t' ht' =>
    (hne t ht).imp_right fun hne => hne t' ht'⟩, h.fits.append h'.fits⟩

/-- A node that is made without parts. -/
theorem Fits.block {role : Option BranchRole} {kind : Kind} {r : Range}
    (hkids : (kind.setParts []).childIds = [])
    (hheld : (kind.setParts []).heldNodes = []) (htakes : Takes (kind.setParts []) ts) :
    (mk role kind r [] ts).Fits := by
  refine ⟨fun ids hids => ?_, htakes.roles, trivial, htakes.fits⟩
  rw [hids rfl]
  exact ⟨hkids, Kind.held_eq_nil hheld, htakes.room⟩

/-- A branch finds its place empty. -/
theorem Takes.branch {k : Kind} {role : BranchRole} (hfree : k.BranchFree role) (h : t.Fits)
    (hrole : t.role = some role) : Takes k [t] ∧ ∀ t' ∈ [t], t'.role = some role :=
  ⟨⟨forall_mem_singleton.mpr (hrole ▸ hfree), pairwise_singleton .., h, trivial⟩,
    forall_mem_singleton.mpr hrole⟩

end Skeleton

namespace Template

open Skeleton

theorem AttributeValue.fitAll (vs : List AttributeValue) :
    FitAll (vs.map AttributeValue.skeleton) := by
  induction vs with
  | nil => trivial
  | cons v vs ih =>
    refine ⟨?_, ih⟩
    cases v <;> exact .block rfl rfl .nil

theorem Attribute.fitAll (xs : List Attribute) : FitAll (xs.map Attribute.skeleton) := by
  induction xs with
  | nil => trivial
  | cons x xs ih =>
    refine ⟨?_, ih⟩
    cases x with
    | plain r name value =>
      exact ⟨fun ids _ => ⟨append_nil ids, Kind.held_eq_nil rfl, nofun⟩, .nil,
        AttributeValue.fitAll value, trivial⟩
    | _ => exact .block rfl rfl .nil

section Markup

variable (c : Coordinates)

theorem Markup.role_skeletons (ms : List Markup) : ∀ t ∈ Markup.skeletons c ms, t.role = none := by
  induction ms with
  | nil => nofun
  | cons m ms ih =>
    refine forall_mem_cons.mpr ⟨?_, ih⟩
    cases m <;> rw [Markup.skeleton, role]

mutual

theorem Markup.fits : (m : Markup) → (m.skeleton c).Fits
  | .element name kind r nameRange attributes children => by
    have htakes :=
  fun ids => Markup.takes (k := .markupElement name kind none ids []) (fun _ => rfl) children
    refine ⟨fun ids _ => ⟨?_, Kind.held_eq_nil rfl, (htakes ids).room⟩, (htakes []).roles,
      Attribute.fitAll attributes, (htakes []).fits⟩
    simp [Kind.setParts, Kind.childIds, Kind.fields, Field.nodeIds]
  | .text r value => .block rfl rfl .nil
  | .mustache r e raw => .block rfl rfl .nil
  | .ifBlock r test elseIf children elseBranch => by
    have hcontent := Markup.takes (k := .markupIfBlock elseIf none [] none) (fun _ => rfl) children
    have helse := Branch.takes (k := .markupIfBlock elseIf none [] none) .otherwise
      (.markupElseBlock []) (by trivial) rfl rfl (fun _ => rfl) elseBranch
    exact .block rfl rfl
      (hcontent.append helse.1 fun t ht => .inl (Markup.role_skeletons c children t ht))
  | .eachBlock r e context index key children elseBranch => by
    have hcontent :=
      Markup.takes (k := .markupEachBlock none none none none [] none) (fun _ => rfl) children
    have helse := Branch.takes (k := .markupEachBlock none none none none [] none) .otherwise
      (.markupElseBlock []) (by trivial) rfl rfl (fun _ => rfl) elseBranch
    exact .block rfl rfl
      (hcontent.append helse.1 fun t ht => .inl (Markup.role_skeletons c children t ht))
  | .awaitBlock r e pending fulfilled rejected => by
    obtain ⟨hpend, hrole⟩ :=
      Branch.takes .pending (.markupAwaitPendingBlock []) trivial rfl rfl (fun _ => rfl) pending
      (k := .markupAwaitBlock none none none none)
    obtain ⟨hfulfilled, hrole'⟩ :=
      AwaitBranch.takes .fulfilled (.markupAwaitThenBlock none []) trivial rfl rfl
      (fun _ => rfl) fulfilled (k := .markupAwaitBlock none none none none)
    obtain ⟨hrejected, hrole''⟩ :=
      AwaitBranch.takes .rejected (.markupAwaitCatchBlock none []) trivial rfl rfl
      (fun _ => rfl) rejected (k := .markupAwaitBlock none none none none)
    refine .block rfl rfl
      (hpend.append (hfulfilled.append hrejected fun t ht => .inr fun t' ht' => ?_)
      fun t ht => .inr fun t' ht' => ?_)
    · rw [hrole' t ht, hrole'' t' ht']
      decide
    · rw [hrole t ht]
      rcases mem_append.mp ht' with ht' | ht'
      · rw [hrole' t' ht']
        decide
      · rw [hrole'' t' ht']
        decide
  | .keyBlock r e children => .block rfl rfl (Markup.takes (fun _ => rfl) children)
  | .snippetBlock r name params children => .block rfl rfl (Markup.takes (fun _ => rfl) children)
  | .constTag r declaration => .block rfl rfl .nil
  | .renderTag r e => .block rfl rfl .nil

theorem Markup.takes {k : Kind} (hk : k.HasRoom none) :
    (ms : List Markup) → Takes k (Markup.skeletons c ms)
  | [] => .nil
  | m :: ms => by
    have hms := Markup.takes hk ms
    obtain ⟨hnone, -⟩ := forall_mem_cons.mp (Markup.role_skeletons c (m :: ms))
    exact ⟨forall_mem_cons.mpr ⟨hnone ▸ hk, hms.room⟩, .cons (fun _ _ => .inl hnone) hms.roles,
      m.fits, hms.fits⟩

theorem Branch.takes {k : Kind} (role : BranchRole) (kind : Kind) (hfree : k.BranchFree role)
    (hkids : (kind.setParts []).childIds = []) (hheld : (kind.setParts []).heldNodes = [])
    (hroom : (kind.setParts []).HasRoom none) : (b : Option Branch) →
    Takes k (Branch.skeletons c role kind b) ∧ ∀ t ∈ Branch.skeletons c role kind b,
      t.role = some role
  | none => ⟨.nil, nofun⟩
  | some (.mk _ children) => Takes.branch hfree (.block hkids hheld (Markup.takes hroom children))
    rfl

theorem AwaitBranch.takes {k : Kind} (role : BranchRole) (kind : Kind) (hfree : k.BranchFree role)
    (hkids : (kind.setParts []).childIds = []) (hheld : (kind.setParts []).heldNodes = [])
    (hroom : (kind.setParts []).HasRoom none) : (b : Option AwaitBranch) →
    Takes k (AwaitBranch.skeletons c role kind b) ∧ ∀ t ∈ AwaitBranch.skeletons c role kind b,
      t.role = some role
  | none => ⟨.nil, nofun⟩
  | some (.mk _ _ children) => Takes.branch hfree (.block hkids hheld (Markup.takes hroom children))
    rfl

end

end Markup

end Template

/-! The whole document. -/

section Weave

variable (source : Text) (d : Template.Document)

/-- The nodes of a document, read off its skeletons. -/
theorem weave_planted : (weave (.ofText source) d .empty).roots =
    numbers 0 (skeletons (.ofText source) d.nodes) ∧
    Skeleton.Planted none (skeletons (.ofText source) d.nodes) .empty
      (weave (.ofText source) d .empty).arena := by
  have hplant := weave_eq_plantAll (.ofText source) d .empty
  have hfits := (takes (.ofText source) (k := .markupElseBlock []) (fun _ => rfl) d.nodes).fits
  obtain ⟨hids, hplanted⟩ := plantAll_planted (.ofText source) none _ hfits nofun
  rw [← hplant] at hids hplanted
  exact ⟨hids, hplanted⟩

/-- The markup nodes of a document form trees under its roots. -/
theorem weave_forest :
    Forest (weave (.ofText source) d .empty).arena (weave (.ofText source) d .empty).roots := by
  obtain ⟨hroots, hplanted⟩ := weave_planted source d
  rw [hroots]
  exact hplanted.forest [] .empty

/-- Weaving adds the nodes of the document and no others: they are numbered through, their kinds,
ranges and links are those of the skeletons, each is reached by one path from one root, and its
parent is the node that lists it. -/
theorem weave_mirrors_document (source : Text) (d : Template.Document) :
    let woven := weave (.ofText source) d .empty
    let skeletons := skeletons (.ofText source) d.nodes
    woven.arena.size = countAll skeletons ∧ woven.roots = numbers 0 skeletons ∧
    Skeleton.MirroredAll woven.arena 0 skeletons ∧
    ∀ x < woven.arena.size, (∃! path, woven.arena.RootPath woven.roots path x) ∧
      (∀ y, woven.arena.parent x = some y ↔ woven.arena.Lists y x) ∧
      (woven.arena.parent x = none ↔ x ∈ woven.roots) ∧
      ∀ field, (woven.arena.kind x).held field = [] := by
  intro woven skeletons
  obtain ⟨hroots, hplanted⟩ := weave_planted source d
  have hforest := weave_forest source d
  refine ⟨hplanted.size.trans (Nat.zero_add _), hroots, hplanted.mirrored _ fun _ _ _ => ⟨rfl, rfl⟩,
    fun x hx => ?_⟩
  exact ⟨hforest.existsUnique_rootPath hx, fun y => hforest.parent_eq_some_iff hx,
    hforest.parent_eq_none_iff hx, hforest.blank x hx⟩

end Weave

end Loom
