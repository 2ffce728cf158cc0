import Loom.Proofs.Tree.Arena
import Loom.Proofs.Weave.Slots
import Loom.Restore.Task

/-!
Shapes of wrappers: how the nodes for the fragments lie in the statement that a wrapper became.

They lie in different branches, and no other statement of the form of a wrapper is on the way to
them.
-/

open List

namespace Loom

open Arena Option

variable {argument member body y' callee object : NodeId} {computed async o : Bool}
  {params : List NodeId} {f : Fragment} {parts : EachParts}

/-- The kinds of the statements that wrappers become. -/
def Kind.isWrapper : Kind → Bool
  | .expressionStatement _ | .ifStatement .. | .function .. | .variableDeclaration .. => true
  | _ => false

/-- The kinds of the nodes that hold statements. -/
def Kind.isBody : Kind → Bool
  | .program .. | .blockStatement _ => true
  | _ => false

namespace Arena

variable {a a' : Arena} {n x y c : NodeId}

/-- A statement that has the form of a loop wrapper. -/
inductive LoopShape (a : Arena) (n : NodeId) (parts : EachParts) : Prop
  | intro {e outer outerName inner innerName arrayCall body : NodeId} {o1 o2 o3 o4 ex async : Bool}
    (statement : a.kind n = .expressionStatement e)
    (call : a.kind e = .callExpression outer [parts.callback] o1)
    (member : a.kind outer = .memberExpression arrayCall outerName false o2)
    (name : a.kind outerName = .identifier "forEach")
    (arrayCall : a.kind arrayCall = .callExpression inner [parts.source] o3)
    (arrayMember : a.kind inner = .memberExpression parts.array innerName false o4)
    (arrayName : a.kind innerName = .identifier "from")
    (array : a.kind parts.array = .identifier "Array")
    (callback : a.kind parts.callback = .arrowFunction parts.params body ex async)

theorem callWithOne?_eq_some :
    a.callWithOne? x = some (callee, argument) ↔ ∃ o,
      a.kind x = .callExpression callee [argument] o := by
  unfold callWithOne?
  split
  · rename_i hk
    rw [hk]
    simp
  · rename_i hk
    constructor
    · intro h
      cases h
    · rintro ⟨o, h⟩
      exact (hk _ _ _ h).elim

theorem plainMember?_eq_some {s : String} : a.plainMember? x = some (object, s) ↔
    ∃ member o, a.kind x = .memberExpression object member false o ∧
      a.kind member = .identifier s := by
  unfold plainMember?
  split
  · rename_i object' member o hk
    rw [hk]
    simp only [map_eq_some_iff, Prod.mk.injEq, identifierName?_eq_some]
    constructor
    · rintro ⟨name, hname, rfl, rfl⟩
      exact ⟨member, o, rfl, hname⟩
    · rintro ⟨member', o', hkind, hname⟩
      cases hkind
      exact ⟨s, hname, rfl, rfl⟩
  · rename_i hk
    constructor
    · intro h
      cases h
    · rintro ⟨member, o, h, -⟩
      exact (hk _ _ _ h).elim

theorem eachParts?_eq_some : a.eachParts? n = some parts ↔ a.LoopShape n parts := by
  constructor
  · intro h
    unfold eachParts? at h
    split at h
    case h_2 => cases h
    rename_i e hn
    simp only [bind_eq_bind, bind_eq_some_iff, Prod.exists] at h
    obtain ⟨outer, callback, he, arrayCall, _, houter, inner, _, harray, array, _, hinner, h⟩ := h
    split at h
    case h_2 => cases h
    rename_i params body ex async hcall
    split at h
    case isFalse => cases h
    rename_i hnames
    cases h
    simp only [Bool.and_eq_true, beq_iff_eq, identifierName?_eq_some] at hnames
    obtain ⟨⟨rfl, rfl⟩, hident⟩ := hnames
    obtain ⟨_, he⟩ := callWithOne?_eq_some.mp he
    obtain ⟨_, _, houter, hname⟩ := plainMember?_eq_some.mp houter
    obtain ⟨_, harray⟩ := callWithOne?_eq_some.mp harray
    obtain ⟨_, _, hinner, hname'⟩ := plainMember?_eq_some.mp hinner
    exact ⟨hn, he, houter, hname, harray, hinner, hname', hident, hcall⟩
  · rintro ⟨hn, he, houter, hname, harray, hinner, hname', hident, hcall⟩
    have he' : a.callWithOne? _ = some _ := callWithOne?_eq_some.mpr ⟨_, he⟩
    have houter' : a.plainMember? _ = some _ := plainMember?_eq_some.mpr ⟨_, _, houter, hname⟩
    have harray' : a.callWithOne? _ = some _ := callWithOne?_eq_some.mpr ⟨_, harray⟩
    have hinner' : a.plainMember? _ = some _ := plainMember?_eq_some.mpr ⟨_, _, hinner, hname'⟩
    have hident' : a.identifierName? _ = some _ := identifierName?_eq_some.mpr hident
    simp [eachParts?, hn, he', houter', harray', hinner', hident', hcall]

theorem lists_of_kind {k : Kind} (hk : a.kind x = k) (hc : c ∈ k.slotIds) : a.Lists x c := by
  rw [Lists, mem_children, hk, Kind.childIds_eq]
  exact hc

/-! The links of the nodes in a wrapper. -/

theorem lists_expression {e : NodeId} (h : a.kind x = .expressionStatement e) : a.Lists x e :=
  lists_of_kind h (mem_singleton_self e)

theorem lists_callee {arguments : List NodeId} (h : a.kind x = .callExpression callee arguments o) :
    a.Lists x callee :=
  lists_of_kind h mem_cons_self

theorem lists_argument (h : a.kind x = .callExpression callee [argument] o) : a.Lists x argument :=
  lists_of_kind h (mem_cons_of_mem _ (mem_singleton_self argument))

theorem lists_object (h : a.kind x = .memberExpression object member computed o) :
    a.Lists x object :=
  lists_of_kind h mem_cons_self

theorem lists_member (h : a.kind x = .memberExpression object member computed o) :
    a.Lists x member :=
  lists_of_kind h (mem_cons_of_mem _ (mem_singleton_self member))

theorem lists_param {ex : Bool} (h : a.kind x = .arrowFunction params body ex async)
    (hc : c ∈ params) : a.Lists x c :=
  lists_of_kind h (mem_append_left _ hc)

/-- `c` is a child of `x`, which does not have the form of a wrapper. -/
def ListsPlain (a : Arena) (x c : NodeId) : Prop := a.Lists x c ∧ (a.kind x).isWrapper = false

theorem below_of_plain (h : Relation.ReflTransGen a.ListsPlain x y) : a.Below x y :=
  h.lift id fun _ _ hlink => hlink.1

/-- `y` is below a child of `n`, with no statement of the form of a wrapper on the way. -/
def Within (a : Arena) (n y : NodeId) : Prop :=
  ∃ c, a.Lists n c ∧ Relation.ReflTransGen a.ListsPlain c y

/-- `y` and `y'` are below different children of a node below `n`. -/
def Split (a : Arena) (n y y' : NodeId) : Prop :=
  ∃ x c c', a.Below n x ∧ a.Lists x c ∧ a.Lists x c' ∧ c ≠ c' ∧ a.Below c y ∧ a.Below c' y'

theorem split_of_nodup {cs : List NodeId} (hx : a.Below n x) (hnodup : cs.Nodup)
    (hcs : ∀ c ∈ cs, a.Lists x c) : cs.Pairwise (a.Split n) :=
  hnodup.imp_of_mem fun hc hc' hne => ⟨x, _, _, hx, hcs _ hc, hcs _ hc', hne, .refl, .refl⟩

namespace LoopShape

variable (h : a.LoopShape n parts)

include h

theorem within_source : a.Within n parts.source := by
  obtain ⟨hn, he, houter, -, harray, -⟩ := h
  refine ⟨_, lists_expression hn, .head ⟨lists_callee he, by rw [he]; rfl⟩ ?_⟩
  exact .head ⟨lists_object houter, by rw [houter]; rfl⟩
    (.single ⟨lists_argument harray, by rw [harray]; rfl⟩)

theorem within_param (hc : c ∈ parts.params) : a.Within n c := by
  obtain ⟨hn, he, -, -, -, -, -, -, hcall⟩ := h
  refine ⟨_, lists_expression hn, .head ⟨lists_argument he, by rw [he]; rfl⟩ ?_⟩
  exact .single ⟨lists_param hcall hc, by rw [hcall]; rfl⟩

theorem split_source (hnodup : ∀ x, a.Below n x → (a.kind x).childIds.Nodup)
    (hc : c ∈ parts.params) : a.Split n parts.source c := by
  obtain ⟨hn, he, houter, -, harray, -, -, -, hcall⟩ := h
  have hbelow : a.Below n _ := .single (lists_expression hn)
  have hne := hnodup _ hbelow
  rw [he, Kind.childIds_eq] at hne
  refine ⟨_, _, _, hbelow, lists_callee he, lists_argument he, ?_, ?_,
    .single (lists_param hcall hc)⟩
  · simpa [Kind.slotIds, Kind.slots, Slot.nodeIds] using hne
  · exact .head (lists_object houter) (.single (lists_argument harray))

theorem split_params {c' : NodeId} (hc : c ∈ parts.params) (hc' : c' ∈ parts.params)
    (hne : c ≠ c') : a.Split n c c' := by
  obtain ⟨hn, he, -, -, -, -, -, -, hcall⟩ := h
  exact ⟨_, c, c', .tail (.single (lists_expression hn)) (lists_argument he),
    lists_param hcall hc, lists_param hcall hc', hne, .refl, .refl⟩

/-- The form of a loop does not depend on the statements inside it. -/
theorem congr (hsame : ∀ x, a.Below n x → (a.kind x).isBody = false → a'.kind x = a.kind x) :
    a'.LoopShape n parts := by
  have hkind : ∀ {x k}, a.Below n x → a.kind x = k → k.isBody = false → a'.kind x = k :=
    fun hx hk hbody => (hsame _ hx (hk ▸ hbody)).trans hk
  obtain ⟨hstmt, he, houter, hname, harray, hinner, hname', hident, hcall⟩ := h
  have he' : a.Below n _ := .single (lists_expression hstmt)
  have houter' : a.Below n _ := he'.tail (lists_callee he)
  have harray' : a.Below n _ := houter'.tail (lists_object houter)
  have hinner' : a.Below n _ := harray'.tail (lists_callee harray)
  have hcall' : a.Below n _ := he'.tail (lists_argument he)
  exact ⟨hkind .refl hstmt rfl, hkind he' he rfl, hkind houter' houter rfl,
    hkind (houter'.tail (lists_member houter)) hname rfl, hkind harray' harray rfl,
    hkind hinner' hinner rfl, hkind (hinner'.tail (lists_member hinner)) hname' rfl,
    hkind (hinner'.tail (lists_object hinner)) hident rfl, hkind hcall' hcall rfl⟩

theorem nodup_params (hnodup : ∀ x, a.Below n x → (a.kind x).childIds.Nodup) :
    parts.params.Nodup := by
  obtain ⟨hn, he, -, -, -, -, -, -, hcall⟩ := h
  have hparams := hnodup _ (.tail (.single (lists_expression hn)) (lists_argument he))
  rw [hcall, Kind.childIds_eq] at hparams
  exact (nodup_append.mp hparams).1

end LoopShape

theorem Split.symm (h : a.Split n y y') : a.Split n y' y := by
  obtain ⟨x, c, c', hx, hc, hc', hne, hy, hy'⟩ := h
  exact ⟨x, c', c, hx, hc', hc, hne.symm, hy', hy⟩

end Arena

namespace Task

variable {t : Task} {a a' : Arena} {n y : NodeId} {ts : List NodeId}

/-- A statement that has the form of the wrapper of a task, with the nodes for the fragments. -/
inductive Shape (t : Task) (a : Arena) (n : NodeId) : List NodeId → Prop
  | expression {e : NodeId} (action : t.action = .expression)
    (statement : a.kind n = .expressionStatement e) (length : t.fragments.length = 1) :
      Shape t a n [e]
  | ifBlock {owner test consequent : NodeId} {elseOwner alternate : Option NodeId}
    (action : t.action = .ifBlock owner elseOwner)
    (statement : a.kind n = .ifStatement test consequent alternate)
    (length : t.fragments.length = 1) : Shape t a n [test]
  | eachBlock {owner : NodeId} {placeholder : Bool} {parts : EachParts} {ts : List NodeId}
    (action : t.action = .eachBlock owner placeholder) (statement : a.LoopShape n parts)
    (targets : t.fragments.mapM (eachTarget? parts) = some ts) : Shape t a n ts
  | callback {owner e body : NodeId} {params : List NodeId} {ex async : Bool}
    (action : t.action = .callback owner) (statement : a.kind n = .expressionStatement e)
    (function : a.kind e = .arrowFunction params body ex async)
    (length : params.length = t.fragments.length) : Shape t a n params
  | snippet {owner id body : NodeId} {params : List NodeId} {async generator : Bool}
    (action : t.action = .snippet owner)
    (statement : a.kind n = .function .declaration (some id) params body async generator)
    (length : params.length + 1 = t.fragments.length) : Shape t a n (id :: params)
  | constTag {declaration : NodeId} (action : t.action = .constTag)
    (statement : a.kind n = .variableDeclaration .const [declaration])
    (length : t.fragments.length = 1) : Shape t a n [declaration]

theorem targets?_eq_some : t.targets? a n = some ts ↔ t.Shape a n ts := by
  constructor
  · intro h
    unfold targets? at h
    split at h
    case h_1 haction =>
      split at h
      case h_2 => cases h
      rename_i e hn
      split at h
      case isFalse => cases h
      rename_i hlength
      cases h
      exact .expression haction hn hlength
    case h_2 haction =>
      split at h
      case h_2 => cases h
      rename_i hn
      split at h
      case isFalse => cases h
      rename_i hlength
      cases h
      exact .ifBlock haction hn hlength
    case h_3 haction =>
      simp only [bind_eq_bind, bind_eq_some_iff] at h
      obtain ⟨parts, hparts, htgts⟩ := h
      exact .eachBlock haction (eachParts?_eq_some.mp hparts) htgts
    case h_4 haction =>
      split at h
      case h_2 => cases h
      rename_i e hn
      split at h
      case h_2 => cases h
      rename_i hcall
      split at h
      case isFalse => cases h
      rename_i hlength
      cases h
      exact .callback haction hn hcall hlength
    case h_5 haction =>
      split at h
      case h_2 => cases h
      rename_i hn
      split at h
      case isFalse => cases h
      rename_i hlength
      cases h
      exact .snippet haction hn hlength
    case h_6 haction =>
      split at h
      case h_2 => cases h
      rename_i declarations hn
      split at h
      case isFalse => cases h
      rename_i hlength
      cases h
      simp only [Bool.and_eq_true, decide_eq_true_eq] at hlength
      obtain ⟨declaration, rfl⟩ := length_eq_one_iff.mp hlength.1
      exact .constTag haction hn hlength.2
  · intro h
    cases h with
    | expression haction hn hlength => simp [targets?, haction, hn, hlength]
    | ifBlock haction hn hlength => simp [targets?, haction, hn, hlength]
    | eachBlock haction hn htgts => simp [targets?, haction, eachParts?_eq_some.mpr hn, htgts]
    | callback haction hn hcall hlength => simp [targets?, haction, hn, hcall, hlength]
    | snippet haction hn hlength => simp [targets?, haction, hn, hlength]
    | constTag haction hn hlength => simp [targets?, haction, hn, hlength]

namespace Shape

theorem wrapper (h : t.Shape a n ts) : (a.kind n).isWrapper = true := by
  cases h with
  | expression _ hn _ => rw [hn]; rfl
  | ifBlock _ hn _ => rw [hn]; rfl
  | eachBlock _ hn _ =>
    obtain ⟨hn, -⟩ := hn
    rw [hn]
    rfl
  | callback _ hn _ _ => rw [hn]; rfl
  | snippet _ hn _ => rw [hn]; rfl
  | constTag _ hn _ => rw [hn]; rfl

theorem map_eachTarget {fs : List Fragment}
    (h : fs.mapM (eachTarget? parts) = some ts) : fs.map (eachTarget? parts) = ts.map some := by
  induction fs generalizing ts with
  | nil =>
    cases h
    rfl
  | cons f fs ih =>
    simp only [mapM_cons, bind_eq_bind, bind_eq_some_iff] at h
    obtain ⟨target, htarget, rest, hrest, h⟩ := h
    cases h
    rw [map_cons, map_cons, htarget, ih hrest]

theorem length (h : t.Shape a n ts) : ts.length = t.fragments.length := by
  cases h with
  | eachBlock _ _ htgts => simpa using (congrArg List.length (map_eachTarget htgts)).symm
  | callback _ _ _ hlength => exact hlength
  | snippet _ _ hlength => exact hlength
  | expression _ _ hlength | ifBlock _ _ hlength | constTag _ _ hlength => exact hlength.symm

/-- The nodes of a loop wrapper that a fragment can be for. -/
theorem eachTarget?_cases (h : eachTarget? parts f = some y) :
    (f.field = .expression ∧ y = parts.source) ∨ (f.field = .context ∧ parts.params[0]? = some y) ∨
      (f.field = .index ∧ parts.params[1]? = some y) := by
  unfold eachTarget? at h
  split at h
  · rename_i hfield
    exact .inl ⟨hfield, (some.inj h).symm⟩
  · rename_i hfield
    exact .inr (.inl ⟨hfield, h⟩)
  · rename_i hfield
    exact .inr (.inr ⟨hfield, h⟩)
  · cases h

/-- The form of a wrapper does not depend on the statements inside it. -/
theorem congr (h : t.Shape a n ts)
    (hsame : ∀ x, a.Below n x → (a.kind x).isBody = false → a'.kind x = a.kind x) :
    t.Shape a' n ts := by
  have hkind : ∀ {x k}, a.Below n x → a.kind x = k → k.isBody = false → a'.kind x = k :=
    fun hx hk hbody => (hsame _ hx (hk ▸ hbody)).trans hk
  cases h with
  | expression haction hstmt hlength => exact .expression haction (hkind .refl hstmt rfl) hlength
  | ifBlock haction hstmt hlength => exact .ifBlock haction (hkind .refl hstmt rfl) hlength
  | eachBlock haction hstmt htgts => exact .eachBlock haction (hstmt.congr hsame) htgts
  | callback haction hstmt hcall hlength =>
    have he : a.Below n _ := .single (lists_expression hstmt)
    exact .callback haction (hkind .refl hstmt rfl) (hkind he hcall rfl) hlength
  | snippet haction hstmt hlength => exact .snippet haction (hkind .refl hstmt rfl) hlength
  | constTag haction hstmt hlength => exact .constTag haction (hkind .refl hstmt rfl) hlength

/-- The nodes for the fragments are inside the statement. -/
theorem within (h : t.Shape a n ts) (hy : y ∈ ts) : a.Within n y := by
  cases h with
  | expression _ hn _ =>
    obtain rfl := mem_singleton.mp hy
    exact ⟨y, lists_expression hn, .refl⟩
  | ifBlock _ hn _ =>
    obtain rfl := mem_singleton.mp hy
    exact ⟨y, lists_of_kind hn mem_cons_self, .refl⟩
  | eachBlock _ hn htgts =>
    have hfrag : some y ∈ ts.map some := mem_map_of_mem hy
    rw [← map_eachTarget htgts] at hfrag
    obtain ⟨f, -, hf⟩ := mem_map.mp hfrag
    rcases eachTarget?_cases hf with ⟨-, rfl⟩ | ⟨-, hparam⟩ | ⟨-, hparam⟩
    · exact hn.within_source
    · exact hn.within_param (mem_of_getElem? hparam)
    · exact hn.within_param (mem_of_getElem? hparam)
  | callback _ hn hcall _ =>
    exact ⟨_, lists_expression hn, .single ⟨lists_param hcall hy, by rw [hcall]; rfl⟩⟩
  | snippet _ hn _ =>
    exact ⟨y, lists_of_kind hn (mem_append_left [_] hy), .refl⟩
  | constTag _ hn _ =>
    obtain rfl := mem_singleton.mp hy
    exact ⟨y, lists_of_kind hn (mem_singleton_self y), .refl⟩

/-- Different fragments of a loop become nodes in different branches. -/
theorem split_each {f' : Fragment} (h : a.LoopShape n parts)
    (hnodup : ∀ x, a.Below n x → (a.kind x).childIds.Nodup)
    (hf : eachTarget? parts f = some y) (hf' : eachTarget? parts f' = some y')
    (hne : f.field ≠ f'.field) : a.Split n y y' := by
  have hparams := h.nodup_params hnodup
  rcases eachTarget?_cases hf with ⟨hfield, rfl⟩ | ⟨hfield, hy⟩ | ⟨hfield, hy⟩ <;>
    rcases eachTarget?_cases hf' with ⟨hfield', rfl⟩ | ⟨hfield', hy'⟩ | ⟨hfield', hy'⟩
  case inl.inl | inr.inl.inr.inl | inr.inr.inr.inr => exact absurd (hfield.trans hfield'.symm) hne
  case inl.inr.inl | inl.inr.inr => exact h.split_source hnodup (mem_of_getElem? hy')
  case inr.inl.inl | inr.inr.inl => exact (h.split_source hnodup (mem_of_getElem? hy)).symm
  case inr.inl.inr.inr | inr.inr.inr.inl =>
    refine h.split_params (mem_of_getElem? hy) (mem_of_getElem? hy') ?_
    rintro rfl
    have hlt := (List.getElem?_eq_some_iff.mp hy).1
    exact absurd ((List.getElem?_inj hlt hparams).mp (hy.trans hy'.symm)) (by decide)

/-- The nodes for different fragments are in different branches of the statement. -/
theorem split (h : t.Shape a n ts) (hnodup : ∀ x, a.Below n x → (a.kind x).childIds.Nodup)
    (hown : t.OwnSlots) : ts.Pairwise (a.Split n) := by
  cases h with
  | expression _ _ _ | ifBlock _ _ _ | constTag _ _ _ => exact pairwise_singleton ..
  | @eachBlock _ _ parts _ haction hn htgts =>
    -- All fragments are for the loop node, so different slots are different fields.
    have hfields : (t.fragments.map (eachTarget? parts)).Pairwise fun o o' =>
        ∀ y ∈ o, ∀ y' ∈ o', a.Split n y y' := by
      rw [pairwise_map]
      refine hown.apart.imp_of_mem fun {f f'} hf hf' hslots y hy y' hy' => ?_
      refine split_each hn hnodup hy hy' fun hfield => ?_
      have howner : f.owner = f'.owner := (hown.owns _ _ haction f hf).trans (hown.owns _ _ haction f' hf').symm
      have hparam := hslots (Prod.ext howner hfield)
      rcases eachTarget?_cases hy with ⟨h, -⟩ | ⟨h, -⟩ | ⟨h, -⟩ <;> rw [h] at hparam <;> cases hparam
    rw [map_eachTarget htgts, pairwise_map] at hfields
    exact hfields.imp fun h => h _ rfl _ rfl
  | callback _ hn hcall _ =>
    have hbelow : a.Below n _ := .single (lists_expression hn)
    have hparams := hnodup _ hbelow
    rw [hcall, Kind.childIds_eq] at hparams
    exact split_of_nodup hbelow (nodup_append.mp hparams).1 fun c hc => lists_param hcall hc
  | @snippet _ id body params _ _ _ hn _ =>
    have hids := hnodup n .refl
    rw [hn] at hids
    have hsplit : ((id :: params) ++ [body]).Nodup := hids
    exact split_of_nodup .refl (nodup_append.mp hsplit).1 fun c hc =>
      lists_of_kind hn (mem_append_left [_] hc)

end Shape

end Task

end Loom
