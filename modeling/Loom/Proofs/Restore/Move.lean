import Loom.Proofs.Tree.Host
import Loom.Restore

/-!
Moving nodes and filling slots: what the single steps of restoring change on the bench, and what
they leave alone.
-/

open List

namespace Loom

open Arena

variable {ε α β : Type} {x : Except ε α} {f : α → Except ε β} {coords : Coordinates} {k' k : Kind}
  {slots : List (SlotField × NodeId)} {t : Task} {w w' : Workbench} {ps : List (Fragment × NodeId)}

theorem bind_eq_ok {b : β} (h : (x >>= f) = .ok b) : ∃ a, x = .ok a ∧ f a = .ok b := by
  cases x with
  | error e => cases h
  | ok a => exact ⟨a, rfl, h⟩

theorem bind_eq_error {e : ε} (h : x >>= f = .error e) :
    x = .error e ∨ ∃ a, x = .ok a ∧ f a = .error e := by
  cases x with
  | error e' =>
    cases h
    exact .inl rfl
  | ok a => exact .inr ⟨a, rfl, h⟩

namespace Workbench

variable {P : Range → Range → Prop} {ids : List NodeId} {id : NodeId}

/-- Nodes not visited yet were moved, from ranges to ranges as `P` says. -/
structure Moved (coords : Coordinates) (P : Range → Range → Prop) (ids : List NodeId)
    (w w' : Workbench) : Prop where
  size : w'.arena.size = w.arena.size
  scopes : w'.scopes = w.scopes
  kind : ∀ x, w'.arena.kind x = w.arena.kind x
  parent : ∀ x, w'.arena.parent x = w.arena.parent x
  visited : ∀ x, x ∈ w'.visited ↔ x ∈ w.visited ∨ x ∈ ids
  still : ∀ x, x ∈ w.visited ∨ x ∉ ids → w'.arena.range x = w.arena.range x ∧
    w'.arena.loc x = w.arena.loc x
  moved : ∀ x ∈ ids, x ∉ w.visited → x < w.arena.size →
    P (w.arena.range x) (w'.arena.range x) ∧ w'.arena.loc x = coords.location (w'.arena.range x)

namespace Moved

theorem nil : Moved coords P [] w w := by
  constructor <;> simp

/-- A node that was visited stays. -/
theorem skip (hid : id ∈ w.visited) (h : Moved coords P ids w w') :
    Moved coords P (id :: ids) w w' where
  size := h.size
  scopes := h.scopes
  kind := h.kind
  parent := h.parent
  visited x := by
    rw [h.visited, mem_cons]
    constructor
    · exact Or.imp_right .inr
    · rintro (hx | rfl | hx)
      · exact .inl hx
      · exact .inl hid
      · exact .inr hx
  still x hx := h.still x (hx.imp_right fun hx hmem => hx (mem_cons_of_mem _ hmem))
  moved x hx hnew hlt := by
    rcases mem_cons.mp hx with rfl | hx
    · exact absurd hid hnew
    · exact h.moved x hx hnew hlt

/-- A node that was not visited moves, and does not move again. -/
theorem set {r : Range} (hid : id ∉ w.visited) (hr : P (w.arena.range id) r)
    (h : Moved coords P ids { w with visited := id :: w.visited, arena := w.arena.setRange id r coords } w') :
    Moved coords P (id :: ids) w w' := by
  constructor
  case size => rw [h.size, size_setRange]
  case scopes => exact h.scopes
  case kind => exact fun x => (h.kind x).trans kind_setRange
  case parent => exact fun x => (h.parent x).trans parent_setRange
  case visited =>
    intro x
    rw [h.visited, mem_cons, mem_cons, or_assoc, or_left_comm]
  case still =>
    intro x hx
    have hne : x ≠ id := by
      rintro rfl
      rcases hx with hx | hx
      · exact hid hx
      · exact hx mem_cons_self
    obtain ⟨hrange, hloc⟩ :=
      h.still x (hx.imp (mem_cons_of_mem _) fun hx hmem => hx (mem_cons_of_mem _ hmem))
    rw [hrange, hloc, range_setRange_ne hne, loc_setRange_ne hne]
    exact ⟨rfl, rfl⟩
  case moved =>
    intro x hx hnew hlt
    by_cases hsame : x = id
    · subst hsame
      obtain ⟨hrange, hloc⟩ := h.still x (.inl mem_cons_self)
      rw [hrange, hloc, range_setRange hlt, loc_setRange hlt]
      simpa using hr
    · have hx' : x ∈ ids := (mem_cons.mp hx).resolve_left hsame
      have hnew' : x ∉ id :: w.visited := by simp [hsame, hnew]
      have hmoved := h.moved x hx' hnew' (by simpa using hlt)
      rwa [range_setRange_ne hsame] at hmoved

end Moved

/-- Moving a sub-tree back by a distance. -/
theorem shiftSubtree_moved (coords : Coordinates) (w : Workbench) (root : NodeId) (delta : Int) :
    Moved coords (fun r r' => r' = r.shifted delta) (w.arena.descendants root) w
      (w.shiftSubtree coords root delta) := by
  unfold shiftSubtree
  generalize w.arena.descendants root = ids
  induction ids generalizing w with
  | nil => exact .nil
  | cons id ids ih =>
    rw [foldl_cons]
    by_cases hid : id ∈ w.visited
    · rw [if_pos (by simpa using hid)]
      exact .skip hid (ih w)
    · rw [if_neg (by simpa using hid)]
      exact .set hid rfl (ih _)

/-- Moving the nodes of a statement to the source. -/
theorem remap_moved {v : VirtualScript} (h : w.remap coords v ids = .ok w') :
    Moved coords (fun r r' => v.mapRange r = some r') ids w w' := by
  induction ids generalizing w with
  | nil =>
    cases h
    exact .nil
  | cons id ids ih =>
    unfold remap at h
    by_cases hid : id ∈ w.visited
    · rw [if_pos (by simpa using hid)] at h
      exact .skip hid (ih h)
    · rw [if_neg (by simpa using hid)] at h
      dsimp only at h
      split at h
      · rename_i r hr
        exact .set hid hr (ih h)
      · cases h

/-! Moving the sub-trees of fragments. -/

/-- Moving sub-trees leaves the scopes and the links alone, and the ranges of all other nodes. -/
theorem shiftTargets_still {ps : List (Fragment × NodeId)} (h : t.shiftTargets coords ps w = .ok w') :
    w'.arena.size = w.arena.size ∧ w'.scopes = w.scopes ∧ (∀ x, w'.arena.kind x = w.arena.kind x) ∧
      ∀ y, (∀ p ∈ ps, ¬ w.arena.Below p.2 y) → w'.arena.range y = w.arena.range y := by
  induction ps generalizing w with
  | nil =>
    cases h
    exact ⟨rfl, rfl, fun _ => rfl, fun _ _ => rfl⟩
  | cons p ps ih =>
    unfold Task.shiftTargets at h
    split at h
    case isFalse => cases h
    have hmoved := shiftSubtree_moved coords w p.2 p.1.delta
    obtain ⟨hsize, hscopes, hkind, hrange⟩ := ih h
    refine ⟨hsize.trans hmoved.size, hscopes.trans hmoved.scopes,
      fun x => (hkind x).trans (hmoved.kind x), fun y hy => ?_⟩
    rw [forall_mem_cons] at hy
    have hout : y ∉ w.arena.descendants p.2 := fun hmem => hy.1 (below_of_mem_within hmem)
    refine (hrange y fun q hq hbelow => hy.2 q hq ?_).trans (hmoved.still y (.inr hout)).1
    exact below_of_lists (fun z c _ hc => by rwa [lists_congr (hmoved.kind z)] at hc) hbelow

/-- The sub-trees of the nodes for some fragments were moved. -/
structure Shifted (h : Arena) (coords : Coordinates) (ps : List (Fragment × NodeId))
    (w w' : Workbench) : Prop where
  size : w'.arena.size = w.arena.size
  scopes : w'.scopes = w.scopes
  kind : ∀ x, w'.arena.kind x = w.arena.kind x
  parent : ∀ x, w'.arena.parent x = w.arena.parent x
  visited : ∀ x, x ∈ w'.visited ↔ x ∈ w.visited ∨ ∃ p ∈ ps, h.Below p.2 x
  still : ∀ x, (∀ p ∈ ps, ¬ h.Below p.2 x) → w'.arena.range x = w.arena.range x ∧
    w'.arena.loc x = w.arena.loc x
  moved : ∀ p ∈ ps, ∀ x, h.Below p.2 x → w'.arena.range x = (w.arena.range x).shifted p.1.delta ∧
      w'.arena.loc x = coords.location (w'.arena.range x)

variable {base h : Arena} {program target : NodeId}

theorem shiftSubtree_shifted (coords : Coordinates) (f : Fragment) (ht : HostTree base h program)
    (hsize : w.arena.size = h.size) (hbelow : h.Below program target)
    (hkind : ∀ x, h.Below target x → w.arena.kind x = h.kind x)
    (hnew : ∀ x, h.Below target x → x ∉ w.visited) :
    Shifted h coords [(f, target)] w (w.shiftSubtree coords target f.delta) := by
  have hmem : ∀ {x}, x ∈ w.arena.descendants target ↔ h.Below target x :=
    ht.mem_descendants hsize hkind hbelow
  have hmoved := shiftSubtree_moved coords w target f.delta
  constructor
  case size => exact hmoved.size
  case scopes => exact hmoved.scopes
  case kind => exact hmoved.kind
  case parent => exact hmoved.parent
  case visited => simpa [hmem] using hmoved.visited
  case still =>
    intro x hx
    exact hmoved.still x (.inr fun hmem' => hx _ (mem_singleton_self _) (hmem.mp hmem'))
  case moved =>
    intro p hp x hx
    obtain rfl := mem_singleton.mp hp
    exact hmoved.moved x (hmem.mpr hx) (hnew x hx) (hsize ▸ ht.bounded x (hbelow.trans hx))

theorem Shifted.nil : Shifted h coords [] w w := by
  constructor <;> simp

/-- Sub-trees that share no node move independently. -/
theorem Shifted.cons {p : Fragment × NodeId} {w1 : Workbench} (h1 : Shifted h coords [p] w w1)
    (h2 : Shifted h coords ps w1 w') (hapart : ∀ q ∈ ps, ∀ x, h.Below p.2 x → ¬ h.Below q.2 x) :
    Shifted h coords (p :: ps) w w' := by
  have hp : p ∈ [p] := mem_singleton_self p
  constructor
  case size => rw [h2.size, h1.size]
  case scopes => exact h2.scopes.trans h1.scopes
  case kind => exact fun x => (h2.kind x).trans (h1.kind x)
  case parent => exact fun x => (h2.parent x).trans (h1.parent x)
  case visited =>
    intro x
    rw [h2.visited, h1.visited, or_assoc]
    simp
  case still =>
    intro x hx
    rw [forall_mem_cons] at hx
    obtain ⟨hrange, hloc⟩ := h2.still x hx.2
    obtain ⟨hrange', hloc'⟩ := h1.still x (by simpa using hx.1)
    exact ⟨hrange.trans hrange', hloc.trans hloc'⟩
  case moved =>
    intro q hq x hx
    rcases mem_cons.mp hq with rfl | hmem
    · obtain ⟨hrange, hloc⟩ := h2.still x fun q' hq' => hapart q' hq' x hx
      obtain ⟨hrange', hloc'⟩ := h1.moved q hp x hx
      rw [hrange, hloc]
      exact ⟨hrange', hloc'⟩
    · have hout : ∀ p' ∈ [p], ¬ h.Below p'.2 x := by
        intro p' hp' hx'
        obtain rfl := mem_singleton.mp hp'
        exact hapart q hmem x hx' hx
      rw [← (h1.still x hout).1]
      exact h2.moved q hmem x hx

/-- A successful move of sub-trees that are as the parser left them. -/
theorem shiftTargets_shifted (ht : HostTree base h program)
    (hok : t.shiftTargets coords ps w = .ok w')
    (hsize : w.arena.size = h.size) (hbelow : ∀ p ∈ ps, h.Below program p.2)
    (hrange : ∀ p ∈ ps, w.arena.range p.2 = h.range p.2)
    (hclear : ∀ p ∈ ps, p.1.generated.contains (h.range p.2) = true →
      ∀ x, h.Below p.2 x → w.arena.kind x = h.kind x ∧ x ∉ w.visited)
    (hapart : ps.Pairwise fun p q => ∀ x, h.Below p.2 x → ¬ h.Below q.2 x) :
    (∀ p ∈ ps, p.1.generated.contains (h.range p.2) = true) ∧ Shifted h coords ps w w' := by
  induction ps generalizing w with
  | nil =>
    cases hok
    exact ⟨by simp, .nil⟩
  | cons p ps ih =>
    obtain ⟨f, target⟩ := p
    rw [forall_mem_cons] at hbelow hrange hclear
    rw [pairwise_cons] at hapart
    unfold Task.shiftTargets at hok
    split at hok
    case isFalse => cases hok
    rename_i hinside
    rw [hrange.1] at hinside
    have hkeep := hclear.1 hinside
    have hfirst := shiftSubtree_shifted coords f ht hsize hbelow.1
      (fun x hx => (hkeep x hx).1) fun x hx => (hkeep x hx).2
    have hout : ∀ q ∈ ps, ∀ x, h.Below q.2 x → ∀ p ∈ [(f, target)], ¬ h.Below p.2 x := by
      intro q hq x hx p hp hx'
      obtain rfl := mem_singleton.mp hp
      exact hapart.1 q hq x hx' hx
    have hrest := ih hok (hfirst.size.trans hsize) hbelow.2
      (fun q hq => ((hfirst.still _ (hout q hq _ .refl)).1).trans (hrange.2 q hq))
      (fun q hq hin x hx => ?_) hapart.2
    · exact ⟨forall_mem_cons.mpr ⟨hinside, hrest.1⟩, hfirst.cons hrest.2 hapart.1⟩
    · obtain ⟨hkind, hnew⟩ := hclear.2 q hq hin x hx
      refine ⟨(hfirst.kind x).trans hkind, ?_⟩
      rw [hfirst.visited]
      rintro (hx' | ⟨p, hp, hx'⟩)
      · exact hnew hx'
      · exact hout q hq x hx p hp hx'

end Workbench

/-! Filling slots. -/

/-- The kind with nodes put into its slots one after the other. -/
def Kind.fill (k : Kind) (slots : List (SlotField × NodeId)) : Option Kind :=
  slots.foldlM (fun k s => k.attach? s.2 s.1) k

/-- The slots of the node `i` with the nodes that go into them. -/
def slotsOf (i : NodeId) (ps : List (Fragment × NodeId)) : List (SlotField × NodeId) :=
  (ps.filter (·.1.owner = i)).map fun p => (p.1.field, p.2)

theorem slotsOf_append (i : NodeId) (ps qs : List (Fragment × NodeId)) :
    slotsOf i (ps ++ qs) = slotsOf i ps ++ slotsOf i qs := by
  simp [slotsOf]

theorem Kind.fill_append (h : k.fill slots = some k') (more : List (SlotField × NodeId)) :
    k.fill (slots ++ more) = k'.fill more := by
  unfold fill at *
  rw [foldlM_append, h]
  rfl

/-- Each slot of a filled kind holds what was put into it. -/
theorem Kind.held_fill (field : SlotField) (h : k.fill slots = some k') :
    k'.held field = (slots.filter (·.1 = field)).foldl (fun held s => holdMore field held s.2)
      (k.held field) := by
  induction slots generalizing k with
  | nil =>
    cases h
    rfl
  | cons s slots ih =>
    obtain ⟨k1, hk1, hrest⟩ :=
      Option.bind_eq_some_iff.mp (show (k.attach? s.2 s.1).bind _ = some k' from h)
    have hheld := ih hrest
    by_cases hs : s.1 = field
    · subst hs
      rw [hheld, held_attach hk1]
      simp
    · rw [hheld, held_attach_ne hk1 (Ne.symm hs)]
      simp [hs]

/-- The children of a filled kind are those that it had and what was put into its slots. -/
theorem Kind.childIds_fill (h : k.fill slots = some k')
    (hblank : ∀ s ∈ slots, s.1 = .param ∨ k.held s.1 = [])
    (hapart : slots.Pairwise fun s s' => s.1 = s'.1 → s.1 = .param) :
    k'.childIds.Perm (slots.map Prod.snd ++ k.childIds) := by
  induction slots generalizing k with
  | nil =>
    cases h
    exact .refl _
  | cons s slots ih =>
    obtain ⟨k1, hk1, hrest⟩ :=
      Option.bind_eq_some_iff.mp (show (k.attach? s.2 s.1).bind _ = some k' from h)
    rw [forall_mem_cons] at hblank
    rw [pairwise_cons] at hapart
    refine (ih hrest ?_ hapart.2).trans ?_
    · intro s' hs'
      by_cases hsame : s.1 = s'.1
      · exact .inl (hsame ▸ hapart.1 s' hs' hsame)
      · rw [held_attach_ne hk1 (Ne.symm hsame)]
        exact hblank.2 s' hs'
    · exact ((childIds_attach hk1 hblank.1).append_left _).trans perm_middle

namespace Workbench

/-- Nodes were put into the slots of their fragments. -/
structure Attached (ps : List (Fragment × NodeId)) (w w' : Workbench) : Prop where
  size : w'.arena.size = w.arena.size
  kind : ∀ i, (w.arena.kind i).fill (slotsOf i ps) = some (w'.arena.kind i)
  parent : ∀ x, (∀ p ∈ ps, x ≠ p.2) → w'.arena.parent x = w.arena.parent x
  owner : (ps.map Prod.snd).Nodup → ∀ p ∈ ps, w'.arena.parent p.2 = some p.1.owner
  visited : w'.visited = w.visited
  range : ∀ x, w'.arena.range x = w.arena.range x
  loc : ∀ x, w'.arena.loc x = w.arena.loc x

theorem attachTargets_scopes (h : t.attachTargets coords ps w = .ok w') : w'.scopes = w.scopes := by
  induction ps generalizing w with
  | nil =>
    cases h
    rfl
  | cons p ps ih =>
    unfold Task.attachTargets at h
    split at h
    case h_2 => cases h
    have hrest := ih h
    exact hrest

theorem attachTargets_attached (howner : ∀ p ∈ ps, p.1.owner < w.arena.size)
    (htarget : ∀ p ∈ ps, p.2 < w.arena.size)
    (h : t.attachTargets coords ps w = .ok w') : Attached ps w w' := by
  induction ps generalizing w with
  | nil =>
    cases h
    constructor <;> simp [slotsOf, Kind.fill]
  | cons p ps ih =>
    obtain ⟨f, target⟩ := p
    rw [forall_mem_cons] at howner htarget
    unfold Task.attachTargets at h
    split at h
    case h_2 => cases h
    rename_i arena hattach
    obtain ⟨k, hk, rfl⟩ := attach_eq_true hattach
    have hrest := ih (by simpa using howner.2) (by simpa using htarget.2) h
    constructor
    case size => simpa using hrest.size
    case kind =>
      intro i
      have hkind := hrest.kind i
      rw [kind_setParent, kind_setKind] at hkind
      by_cases hi : f.owner = i
      · subst hi
        rw [if_pos ⟨rfl, howner.1⟩] at hkind
        simpa [slotsOf, Kind.fill, hk] using hkind
      · rw [if_neg fun h => hi h.1.symm] at hkind
        simpa [slotsOf, hi] using hkind
    case parent =>
      intro x hx
      rw [forall_mem_cons] at hx
      rw [hrest.parent x hx.2, parent_setParent_ne _ hx.1, parent_setKind]
    case owner =>
      intro hnodup
      rw [map_cons, nodup_cons] at hnodup
      refine forall_mem_cons.mpr ⟨?_, hrest.owner hnodup.2⟩
      -- The nodes put into slots later are other ones.
      have hother : ∀ p ∈ ps, target ≠ p.2 := fun p hp heq =>
        hnodup.1 (mem_map.mpr ⟨p, hp, heq.symm⟩)
      rw [hrest.parent target hother, parent_setParent, size_setKind, if_pos ⟨rfl, htarget.1⟩]
    case visited => exact hrest.visited
    case range => exact by simpa using hrest.range
    case loc => exact by simpa using hrest.loc

end Workbench

/-- The steps of undoing a wrapper. -/
theorem Task.restore_eq_ok {w w' : Workbench} {n : NodeId} {tokens tokens' : List Token}
    {comments comments' : List Comment}
    (h : t.restore coords w n tokens comments = .ok (w', tokens', comments')) :
    ∃ targets w1 w2, t.targets? w.arena n = some targets ∧
      t.shiftTargets coords (t.fragments.zip targets) w = .ok w1 ∧
      t.attachTargets coords (t.fragments.zip targets)
        { w1 with scopes := t.reconcile w1.arena n targets w1.scopes } = .ok w2 ∧
      w' = { w2 with arena := (w2.arena.detach n).2 } ∧
      tokens' = t.relocate coords tokens ∧ comments' = t.relocate coords comments := by
  unfold restore at h
  split at h
  case h_2 => cases h
  rename_i targets htgts
  obtain ⟨w1, hshift, h⟩ := bind_eq_ok h
  obtain ⟨w2, hattach, h⟩ := bind_eq_ok h
  cases h
  exact ⟨targets, w1, w2, htgts, hshift, hattach, rfl, rfl, rfl⟩

end Loom
