import Loom.Proofs.Restore.Walk
import Loom.Proofs.Weave.Planted

/-!
The end of restoring: what is left of the scaffolding goes, the statements of the scripts move to
the source, and the markup nodes join the program.

A top-level statement stays if it starts on copied text. Nothing that was put into a slot moves
again.
-/

open List

namespace Loom

open Arena

variable {comments : List Comment} {roots : List NodeId} {tokens : List Token} {r : Restored}
  {scopes : ScopeGraph}
  {source : Text} {coords : Coordinates} {v : VirtualScript} {h : Arena} {program : NodeId}

/-- The steps of restoring. -/
theorem restore_eq_ok (hok : restore coords v h scopes program tokens comments roots = .ok r) :
    ∃ s w, Restorer.walkAll coords h.size (h.children program)
        ⟨⟨h, scopes, []⟩, v.tasks, .ofList tokens, .ofList comments, [], []⟩ = .ok s ∧
      s.tasks = [] ∧ s.bench.cleanStatements coords v (s.bench.arena.children program) = .ok w ∧
      r.arena = (w.placeRoots program roots).arena.setRange program
        (contentRange (w.placeRoots program roots).arena program r.tokens r.comments) coords ∧
      r.scopes = w.scopes ∧
      r.tokens = Cursor.sortByStart (s.restoredTokens ++ v.remapLeftovers coords s.tokens.remaining) ∧
      r.comments = Cursor.sortByStart (s.restoredComments ++ v.remapLeftovers coords s.comments.remaining) := by
  obtain ⟨s, hwalk, hok⟩ := bind_eq_ok hok
  cases htasks : s.tasks with
  | cons t rest =>
    rw [htasks] at hok
    cases hok
  | nil =>
    rw [htasks] at hok
    obtain ⟨w, hclean, hok⟩ := bind_eq_ok hok
    cases hok
    refine ⟨s, w, hwalk, htasks, hclean, rfl, ?_, rfl, rfl⟩
    unfold Workbench.placeRoots
    dsimp only
    split <;> rfl

/-- Restoring fails on the walk, with a task that is left, or in what is left of the script. -/
theorem restore_error_cases {e : Failure}
    (herror : restore coords v h scopes program tokens comments roots = .error e) :
    Restorer.walkAll coords h.size (h.children program)
        ⟨⟨h, scopes, []⟩, v.tasks, .ofList tokens, .ofList comments, [], []⟩ = .error e ∨
      ∃ s, Restorer.walkAll coords h.size (h.children program)
          ⟨⟨h, scopes, []⟩, v.tasks, .ofList tokens, .ofList comments, [], []⟩ = .ok s ∧
        ((∃ t ∈ s.tasks, e = .shape .wrapperMissing (.of coords t.anchor)) ∨
          s.bench.cleanStatements coords v (s.bench.arena.children program) = .error e) := by
  rcases bind_eq_error herror with hwalk | ⟨s, hwalk, herror⟩
  · exact .inl hwalk
  · refine .inr ⟨s, hwalk, ?_⟩
    cases htasks : s.tasks with
    | cons t rest =>
      rw [htasks] at herror
      cases herror
      exact .inl ⟨t, mem_cons_self .., rfl⟩
    | nil =>
      rw [htasks] at herror
      rcases bind_eq_error herror with hclean | ⟨w, -, herror⟩
      · exact .inr hclean
      · cases herror

namespace Workbench

variable {w w1 w' : Workbench} {s : NodeId} {ss gone gone' : List NodeId}

/-- The statements `ss` of a program were cleaned up, and `gone` of them were removed. -/
structure Cleaned (v : VirtualScript) (h : Arena) (program : NodeId) (ss gone : List NodeId)
    (w w' : Workbench) : Prop where
  size : w'.arena.size = w.arena.size
  scopes : w'.scopes = w.scopes
  kind : ∀ x, w'.arena.kind x = if x = program then (w.arena.kind x).dropAll gone
    else w.arena.kind x
  parent : ∀ x, x ∉ gone → w'.arena.parent x = w.arena.parent x
  visited : ∀ x ∈ w.visited, x ∈ w'.visited
  fresh : ∀ x ∈ w'.visited, x ∈ w.visited ∨ ∃ s ∈ ss, h.Below s x
  still : ∀ x, x ∈ w.visited ∨ (∀ s ∈ ss, ¬ h.Below s x) →
    w'.arena.range x = w.arena.range x ∧ w'.arena.loc x = w.arena.loc x
  /-- A statement that starts on copied text stays only if all that is left of it does. -/
  mapped : ∀ s ∈ ss, (v.mapStart (w.arena.range s).start).isSome = true → ∀ x, w.arena.Below s x →
    x ∈ w.visited ∨ (v.mapStart (w.arena.range x).start).isSome = true

theorem Cleaned.refl : Cleaned v h program [] [] w w := by
  constructor <;> simp [Kind.dropAll]

theorem Cleaned.trans (h1 : Cleaned v h program [s] gone w w1)
    (h2 : Cleaned v h program ss gone' w1 w')
    (hapart : ∀ s' ∈ ss, ∀ y, w.arena.Below s' y → y ≠ program ∧ ¬ h.Below s y) :
    Cleaned v h program (s :: ss) (gone ++ gone') w w' := by
  constructor
  case size => rw [h2.size, h1.size]
  case scopes => rw [h2.scopes, h1.scopes]
  case kind =>
    intro x
    rw [h2.kind, h1.kind]
    split
    · rw [Kind.dropAll_append]
    · rfl
  case parent =>
    intro x hx
    rw [mem_append, not_or] at hx
    rw [h2.parent x hx.2, h1.parent x hx.1]
  case visited => exact fun x hx => h2.visited x (h1.visited x hx)
  case fresh =>
    intro x hx
    rcases h2.fresh x hx with hx | ⟨s', hs', hbelow⟩
    · rcases h1.fresh x hx with hx | ⟨s', hs', hbelow⟩
      · exact .inl hx
      · exact .inr ⟨s', mem_cons.mpr (.inl (mem_singleton.mp hs')), hbelow⟩
    · exact .inr ⟨s', mem_cons_of_mem _ hs', hbelow⟩
  case still =>
    intro x hx
    rw [forall_mem_cons] at hx
    obtain ⟨hrange, hloc⟩ := h1.still x (hx.imp_right fun hout => by simpa using hout.1)
    obtain ⟨hrange', hloc'⟩ := h2.still x (hx.imp (h1.visited x) And.right)
    exact ⟨hrange'.trans hrange, hloc'.trans hloc⟩
  case mapped =>
    refine forall_mem_cons.mpr ⟨h1.mapped s (mem_singleton_self s), fun s' hs' hsome x hx => ?_⟩
    -- What is below another statement was not touched.
    have hrange : ∀ y, w.arena.Below s' y → w1.arena.range y = w.arena.range y := fun y hy =>
      (h1.still y (.inr (by simpa using (hapart s' hs' y hy).2))).1
    have hx1 : w1.arena.Below s' x := by
      induction hx with
      | refl => exact .refl
      | tail hxy hyz ih =>
        have hkind := (h1.kind _).trans (if_neg (hapart s' hs' _ hxy).1)
        rw [← lists_congr hkind] at hyz
        exact ih.tail hyz
    have hmapped := h2.mapped s' hs' (by rw [hrange s' .refl]; exact hsome) x hx1
    rw [hrange x hx] at hmapped
    refine hmapped.imp_left fun hvis => (h1.fresh x hvis).resolve_right ?_
    simpa using (hapart s' hs' x hx).2

theorem Cleaned.lists (hc : Cleaned v h program ss gone w w') {x c : NodeId}
    (hlists : w'.arena.Lists x c) : w.arena.Lists x c := by
  rw [Arena.Lists, mem_children, hc.kind] at hlists
  rw [Arena.Lists, mem_children]
  split at hlists
  · exact (Kind.childIds_dropAll_sublist ..).subset hlists
  · exact hlists

/-- A statement goes exactly when it does not start on copied text. -/
theorem cleanStatement_cases (hbefore : ∀ b ∈ v.breakpoints, b.stop ≤ v.sentinel)
    (hok : w.cleanStatement coords v s = .ok w') :
    ((v.mapStart (w.arena.range s).start).isNone = true ∧ w' =
      { w with arena := (w.arena.detach s).2 }) ∨
      ((v.mapStart (w.arena.range s).start).isNone = false ∧
        w.remap coords v (w.arena.descendants s) = .ok w') := by
  unfold cleanStatement at hok
  dsimp only at hok
  split at hok
  · split at hok
    · cases hok
    · rename_i hcontent
      refine .inl ⟨?_, (Except.ok.inj hok).symm⟩
      -- All copied text ends before the padding starts.
      simp only [Bool.or_eq_true, decide_eq_true_eq, not_or] at hcontent
      rw [Option.isNone_iff_eq_none, VirtualScript.mapStart, Option.map_eq_none_iff, find?_eq_none]
      intro b hb hmem
      have hstop := hbefore b hb
      simp only [Bool.and_eq_true, decide_eq_true_eq] at hmem
      omega
  · split at hok
    · rename_i hnone
      split at hok
      · cases hok
      · exact .inl ⟨hnone, (Except.ok.inj hok).symm⟩
    · rename_i hnone
      exact .inr ⟨eq_false_of_ne_true hnone, hok⟩

variable {base : Arena}

variable (ht : HostTree base h program) (hsize : w.arena.size = h.size)
  (hsub : ∀ x c, h.Below program x → w.arena.Lists x c → h.Lists x c)
  (hbefore : ∀ b ∈ v.breakpoints, b.stop ≤ v.sentinel)

include ht hsize hsub hbefore

/-- A statement of the program is removed or moved; nothing else changes. -/
theorem cleanStatement_cleaned (hs : h.Lists program s) (hparent : w.arena.parent s = some program)
    (hok : w.cleanStatement coords v s = .ok w') :
    Cleaned v h program [s] (if (v.mapStart (w.arena.range s).start).isNone then [s] else []) w
      w' := by
  have hlt : program < w.arena.size := hsize ▸ ht.bounded program .refl
  rcases cleanStatement_cases hbefore hok with ⟨hnone, rfl⟩ | ⟨hsome, hremap⟩
  · rw [if_pos hnone]
    have hdet := Arena.Relinked.detach (a := w.arena) s
    refine ⟨hdet.size, rfl, fun x => ?_, fun x hx => ?_, fun x hx => hx, fun x hx => .inl hx,
      fun x _ => ?_, ?_⟩
    · rw [kind_detach hparent hlt]
      split
      · rename_i heq
        rw [heq]
        rfl
      · rfl
    · exact hdet.parent x (by simpa using hx)
    · exact ⟨hdet.range x, hdet.loc x⟩
    · rw [Option.isNone_iff_eq_none] at hnone
      simp [hnone]
  · rw [hsome]
    have hinner : ∀ y c, h.Below s y → w.arena.Lists y c → h.Lists y c :=
      fun y c hy => hsub y c (.head hs hy)
    have hbelow : ∀ x, w.arena.Below s x → h.Below s x := fun x hx => below_of_lists hinner hx
    have hdescendant : ∀ x ∈ w.arena.descendants s, h.Below s x := fun x hx =>
      hbelow x (below_of_mem_within hx)
    have hmoved := remap_moved hremap
    refine ⟨hmoved.size, hmoved.scopes, fun x => ?_, fun x _ => hmoved.parent x, fun x hx => ?_,
      fun x hx => ?_, fun x hx => ?_, forall_mem_singleton.mpr fun _ x hx => ?_⟩
    · rw [hmoved.kind]
      split <;> rfl
    · exact (hmoved.visited x).mpr (.inl hx)
    · exact ((hmoved.visited x).mp hx).imp_right fun hmem => ⟨s, mem_singleton_self s, hdescendant x hmem⟩
    · refine hmoved.still x (hx.imp_right fun hout hmem => ?_)
      exact hout s (mem_singleton_self s) (hdescendant x hmem)
    · by_cases hvis : x ∈ w.visited
      · exact .inl hvis
      · have hmem := ht.mem_descendants_of_below hsize hinner (.single hs) hx
        have hmap := (hmoved.moved x hmem hvis (hsize ▸ ht.bounded x (.head hs (hbelow x hx)))).1
        obtain ⟨start, hstart, -⟩ := Option.bind_eq_some_iff.mp hmap
        exact .inr (by rw [hstart]; rfl)

/-- What is removed of some statements: those that do not start on copied text. -/
theorem cleanStatements_cleaned (hss : ∀ s ∈ ss, h.Lists program s) (hnodup : ss.Nodup)
    (hparent : ∀ s ∈ ss, w.arena.parent s = some program)
    (hok : w.cleanStatements coords v ss = .ok w') :
    Cleaned v h program ss (ss.filter fun s => (v.mapStart (w.arena.range s).start).isNone) w
      w' := by
  induction ss generalizing w with
  | nil =>
    cases hok
    exact .refl
  | cons s ss ih =>
    rw [forall_mem_cons] at hss hparent
    rw [nodup_cons] at hnodup
    obtain ⟨w1, hstep, hrest⟩ :=
      bind_eq_ok (show (w.cleanStatement coords v s >>= _) = .ok w' from hok)
    have hcleaned := cleanStatement_cleaned ht hsize hsub hbefore hss.1 hparent.1 hstep
    have hother : ∀ s' ∈ ss, s' ≠ s := fun s' hs' heq => hnodup.1 (heq ▸ hs')
    have hapart : ∀ s' ∈ ss, ∀ y, w.arena.Below s' y → y ≠ program ∧ ¬ h.Below s y := by
      intro s' hs' y hy
      have hbelow : h.Below s' y := below_of_lists (fun z c hz hc => hsub z c (.head (hss.2 s' hs') hz) hc) hy
      refine ⟨?_, fun hsy => hother s' hs' (ht.eq_of_below_siblings .refl (hss.2 s' hs') hss.1 hbelow hsy)⟩
      rintro rfl
      exact ht.not_below_parent .refl (hss.2 s' hs') hbelow
    have hrange : ∀ s' ∈ ss, w1.arena.range s' = w.arena.range s' := fun s' hs' =>
      (hcleaned.still s' (.inr (by simpa using (hapart s' hs' s' .refl).2))).1
    have hfilter : ss.filter (fun s => (v.mapStart (w1.arena.range s).start).isNone) =
        ss.filter fun s => (v.mapStart (w.arena.range s).start).isNone :=
      filter_congr fun s' hs' => by rw [hrange s' hs']
    have hrest := ih (hcleaned.size.trans hsize) ?_ hss.2 hnodup.2 ?_ hrest
    · rw [hfilter] at hrest
      have hall := hcleaned.trans hrest hapart
      rw [filter_cons]
      split
      · rename_i hnone
        rwa [if_pos hnone] at hall
      · rename_i hsome
        rwa [if_neg hsome] at hall
    · exact fun x c hx hc => hsub x c hx (hcleaned.lists hc)
    · intro s' hs'
      rw [hcleaned.parent s' (by split <;> simp [hother s' hs']), hparent.2 s' hs']

end Workbench

/-! The markup nodes join the program. -/

namespace Kind

variable {st : SourceType} {body gone : List NodeId}

theorem drop_program (c : NodeId) :
    (Kind.program st body).drop c = .program st (body.filter (· != c)) := by
  unfold drop
  split
  · rfl
  · rename_i hcan
    have hout : c ∉ body := by simpa [canDrop, slots, Slot.canRemove, Slot.nodeIds] using hcan
    have hkept : ∀ x ∈ body, (x != c) = true := fun x hx =>
      bne_iff_ne.mpr fun heq => hout (heq ▸ hx)
    rw [filter_eq_self.mpr hkept]

/-- A program can do without any of its statements. -/
theorem dropAll_program :
    (Kind.program st body).dropAll gone = .program st (body.filter (· ∉ gone)) := by
  induction gone generalizing body with
  | nil => simp [dropAll]
  | cons c gone ih =>
    unfold dropAll at ih ⊢
    rw [foldl_cons, drop_program, ih, filter_filter]
    congr 1
    refine filter_congr fun x _ => ?_
    by_cases hx : x = c <;> simp [hx]

end Kind

namespace Arena

variable {a : Arena} {i : NodeId}

/-- Appends nodes to the body of a program. -/
def pushRoots (program : NodeId) (roots : List NodeId) (a : Arena) : Arena :=
  roots.foldl (fun a r => (a.pushChild program r).2) a

/-- What appending nodes leaves alone. -/
structure Pushed (program : NodeId) (roots : List NodeId) (a a' : Arena) : Prop where
  size : a'.size = a.size
  kind : ∀ x, x ≠ program → a'.kind x = a.kind x
  range : ∀ x, a'.range x = a.range x
  loc : ∀ x, a'.loc x = a.loc x
  parent : ∀ x, x ∉ roots → a'.parent x = a.parent x

theorem pushRoots_pushed (program : NodeId) (roots : List NodeId) (a : Arena) :
    Pushed program roots a (a.pushRoots program roots) := by
  induction roots generalizing a with
  | nil => constructor <;> simp [pushRoots]
  | cons r roots ih =>
    have hrest := ih (a.pushChild program r).2
    have hpushed := Relinked.pushChild (a := a) program r
    constructor
    case size => exact hrest.size.trans hpushed.size
    case kind => exact fun x hx => (hrest.kind x hx).trans (kind_pushChild_ne r hx)
    case range => exact fun x => (hrest.range x).trans (hpushed.range x)
    case loc => exact fun x => (hrest.loc x).trans (hpushed.loc x)
    case parent =>
      intro x hx
      rw [mem_cons, not_or] at hx
      exact (hrest.parent x hx.2).trans (hpushed.parent x hx.1)

theorem pushRoots_program {st : SourceType} {body : List NodeId} (hlt : program < a.size)
    (hroots : ∀ r ∈ roots, r < a.size) (hkind : a.kind program = .program st body) :
    (a.pushRoots program roots).kind program = .program st (body ++ roots) ∧
      ∀ r ∈ roots, (a.pushRoots program roots).parent r = some program := by
  induction roots generalizing a body with
  | nil => simp [pushRoots, hkind]
  | cons r roots ih =>
    rw [forall_mem_cons] at hroots
    let a1 := (a.setKind program (.program st (body ++ [r]))).setParent r (some program)
    have hpush : (a.pushChild program r).2 = a1 := by
      unfold pushChild
      rw [hkind]
      rfl
    have hkind1 : a1.kind program = .program st (body ++ [r]) := by
      rw [kind_setParent, kind_setKind, if_pos ⟨rfl, hlt⟩]
    have hsize : a1.size = a.size := by rw [size_setParent, size_setKind]
    have hrest := ih (hsize ▸ hlt) (hsize ▸ hroots.2) hkind1
    have hstep : a.pushRoots program (r :: roots) = a1.pushRoots program roots := by
      rw [← hpush]
      rfl
    rw [hstep]
    refine ⟨by simpa using hrest.1, forall_mem_cons.mpr ⟨?_, hrest.2⟩⟩
    by_cases hr : r ∈ roots
    · exact hrest.2 r hr
    · rw [(pushRoots_pushed program roots a1).parent r hr, parent_setParent, size_setKind, if_pos ⟨rfl, hroots.1⟩]

end Arena

/-- The body of the program is put in order. -/
theorem Workbench.placeRoots_program {w : Workbench} {body : List NodeId} {st : SourceType}
    (hlt : program < w.arena.size) (hroots : ∀ x ∈ roots, x < w.arena.size)
    (hkind : w.arena.kind program = .program st body) :
    ∃ body', (w.placeRoots program roots).arena =
        (w.arena.pushRoots program roots).setKind program (.program st body') ∧
      body'.Perm (body ++ roots) ∧
      body'.Pairwise fun x y => (w.arena.range x).start ≤ (w.arena.range y).start := by
  have hpushed := pushRoots_pushed program roots w.arena
  have hkind' := (pushRoots_program hlt hroots hkind).1
  have hstatements : (w.arena.pushRoots program roots).children program = body ++ roots := by
    unfold children
    rw [hkind']
    exact append_nil _
  let le (x y : NodeId) : Bool := (w.arena.range x).start ≤ (w.arena.range y).start
  refine ⟨(body ++ roots).mergeSort le, ?_, mergeSort_perm .., ?_⟩
  · unfold placeRoots
    dsimp only
    rw [show roots.foldl (fun a r => (a.pushChild program r).2) w.arena =
      w.arena.pushRoots program roots from rfl, hkind']
    simp only [hstatements, hpushed.range]
    rfl
  · have hsorted := @pairwise_mergeSort _ le
      (fun x y z hxy hyz => by simp only [le, decide_eq_true_eq] at *; omega)
      (fun x y => by simp only [le, Bool.or_eq_true, decide_eq_true_eq]; omega) (body ++ roots)
    exact hsorted.imp of_decide_eq_true

/-- A restored parse, from the bench after the walk. -/
structure Finished (h : Arena) (program : NodeId) (v : VirtualScript) (roots : List NodeId)
    (w : Workbench) (r : Restored) : Prop where
  size : r.arena.size = w.arena.size
  scopes : r.scopes = w.scopes
  kind : ∀ x, x ≠ program → r.arena.kind x = w.arena.kind x
  still : ∀ x, x ≠ program → x ∈ w.visited ∨ ¬ h.Below program x →
    r.arena.range x = w.arena.range x ∧ r.arena.loc x = w.arena.loc x
  parent : ∀ x, x ∉ roots → (v.mapStart (w.arena.range x).start).isSome = true ∨
    ¬ h.Lists program x → r.arena.parent x = w.arena.parent x
  /-- What is left of a statement that starts on copied text starts there too. -/
  mapped : ∀ s, w.arena.Lists program s → (v.mapStart (w.arena.range s).start).isSome = true →
    ∀ x, w.arena.Below s x → x ∈ w.visited ∨ (v.mapStart (w.arena.range x).start).isSome = true
  /-- The program has the statements that start on copied text and the markup nodes, in order. -/
  body : ∀ st body, w.arena.kind program = .program st body → (∀ x ∈ roots, x < w.arena.size) →
    (∀ x ∈ roots, r.arena.parent x = some program) ∧
    ∃ body', r.arena.kind program = .program st body' ∧
      body'.Perm (body.filter (fun s => (v.mapStart (w.arena.range s).start).isSome) ++ roots) ∧
      (program ∉ body' → body'.Pairwise fun x y => (r.arena.range x).start ≤ (r.arena.range y).start)

theorem Standing.finished {woven : Woven} {scripts : List Fragment} {w w' : Workbench}
    {done : List Match} {range : Range} (hs : Standing source woven scripts h program w done)
    (hclean : w.cleanStatements coords woven.script (w.arena.children program) = .ok w')
    (harena : r.arena = (w'.placeRoots program woven.roots).arena.setRange program range coords)
    (hscopes : r.scopes = w'.scopes) : Finished h program woven.script woven.roots w r := by
  have hlists : ∀ s ∈ w.arena.children program, h.Lists program s :=
    fun s hmem => hs.lists_host .refl hmem
  have hcleaned :=
    Workbench.cleanStatements_cleaned hs.host hs.size (fun x c hx hc => hs.lists_host hx hc)
    hs.layout.breakpoint_before hlists
    ((w.arena.children_perm program).nodup_iff.mpr (hs.nodup_host .refl))
    (fun s hmem => hs.parent_of_lists .refl (fun m hm => hs.node_ne hm) hmem) hclean
  have hpushed := pushRoots_pushed program woven.roots w'.arena
  have hlt : program < w'.arena.size := by
    rw [hcleaned.size, hs.size]
    exact hs.host.bounded program .refl
  -- Placing the roots and setting the range of the program touch the kind and the range of the program only.
  have hplaced : (w'.placeRoots program woven.roots).arena =
      w'.arena.pushRoots program woven.roots ∨
      ∃ k, (w'.placeRoots program woven.roots).arena =
        (w'.arena.pushRoots program woven.roots).setKind program k := by
    unfold Workbench.placeRoots
    dsimp only
    split
    · exact .inr ⟨_, rfl⟩
    · exact .inl rfl
  have hnode : ∀ x, r.arena.parent x = (w'.arena.pushRoots program woven.roots).parent x ∧
      (x ≠ program → r.arena.kind x = w'.arena.kind x ∧ r.arena.range x = w'.arena.range x ∧
        r.arena.loc x = w'.arena.loc x) := by
    intro x
    rw [harena, parent_setRange]
    rcases hplaced with heq | ⟨k, heq⟩
    · rw [heq]
      refine ⟨rfl, fun hx => ?_⟩
      rw [kind_setRange, range_setRange_ne hx, loc_setRange_ne hx,
        hpushed.kind x hx, hpushed.range, hpushed.loc]
      exact ⟨rfl, rfl, rfl⟩
    · rw [heq, parent_setKind]
      refine ⟨rfl, fun hx => ?_⟩
      rw [kind_setRange, range_setRange_ne hx, loc_setRange_ne hx,
        kind_setKind_ne hx, range_setKind, loc_setKind, hpushed.kind x hx, hpushed.range,
        hpushed.loc]
      exact ⟨rfl, rfl, rfl⟩
  constructor
  case size =>
    rw [harena, size_setRange]
    rcases hplaced with heq | ⟨k, heq⟩
    · rw [heq, hpushed.size, hcleaned.size]
    · rw [heq, size_setKind, hpushed.size, hcleaned.size]
  case scopes => rw [hscopes, hcleaned.scopes]
  case kind =>
    intro x hx
    rw [((hnode x).2 hx).1, hcleaned.kind, if_neg hx]
  case still =>
    intro x hx hvis
    have hstill := hcleaned.still x (hvis.imp_right fun hbelow s hmem hsx =>
      hbelow (.head (hlists s hmem) hsx))
    rw [((hnode x).2 hx).2.1, ((hnode x).2 hx).2.2]
    exact hstill
  case parent =>
    intro x hx hkept
    rw [(hnode x).1, hpushed.parent x hx, hcleaned.parent x]
    intro hmem
    obtain ⟨hchild, hnone⟩ := mem_filter.mp hmem
    rcases hkept with hsome | hnot
    · rw [Option.isNone_iff_eq_none] at hnone
      rw [hnone] at hsome
      cases hsome
    · exact hnot (hlists x hchild)
  case mapped => exact hcleaned.mapped
  case body =>
    intro st body hkind hroots
    have hbody : w'.arena.kind program =
        .program st (body.filter fun s => (woven.script.mapStart (w.arena.range s).start).isSome) := by
      have hkids : w.arena.children program = body := by
        unfold children
        rw [hkind]
        exact append_nil body
      rw [hcleaned.kind, if_pos rfl, hkind, Kind.dropAll_program, hkids]
      congr 1
      refine filter_congr fun x hx => ?_
      cases hmap : woven.script.mapStart (w.arena.range x).start <;> simp [hx, hmap]
    have hroots' : ∀ x ∈ woven.roots, x < w'.arena.size := hcleaned.size ▸ hroots
    have hparents := (pushRoots_program hlt hroots' hbody).2
    refine ⟨fun x hx => (hnode x).1.trans (hparents x hx), ?_⟩
    obtain ⟨body', hplace, hperm, hsorted⟩ := Workbench.placeRoots_program hlt hroots' hbody
    refine ⟨body', ?_, hperm, fun hself => hsorted.imp_of_mem fun {x y} hx hy hle => ?_⟩
    · rw [harena, kind_setRange, hplace, kind_setKind, if_pos ⟨rfl, hpushed.size ▸ hlt⟩]
    · have hx' : x ≠ program := fun heq => hself (heq ▸ hx)
      have hy' : y ≠ program := fun heq => hself (heq ▸ hy)
      rw [((hnode x).2 hx').2.1, ((hnode y).2 hy').2.1]
      exact hle

/-- The items of a restored script: those that the tasks gathered in this order, and what is left of
the others. -/
def VirtualScript.collect {α : Type} [Ranged α] (v : VirtualScript) (coords : Coordinates)
    (ts : List Task) (items : List α) : List α :=
  Cursor.sortByStart ((ts.foldl (Task.gather coords) (.ofList items, [])).2 ++
    v.remapLeftovers coords (ts.foldl (Task.gather coords) (.ofList items, [])).1.remaining)

/-- The restored items are the ones that the tasks gathered and what is left over. -/
theorem Restorer.Gathered.collect {coords : Coordinates} {ts : List Task} {v : VirtualScript}
    {h : Arena}
    {scopes : ScopeGraph} {tokens tokens' : List Token} {comments comments' : List Comment}
    {s : Restorer} (hg : Gathered coords ts (.start v h scopes tokens comments) s)
    (htokens : tokens' =
      Cursor.sortByStart (s.restoredTokens ++ v.remapLeftovers coords s.tokens.remaining))
    (hcomments : comments' = Cursor.sortByStart
      (s.restoredComments ++ v.remapLeftovers coords s.comments.remaining)) :
    tokens' = v.collect coords ts tokens ∧ comments' = v.collect coords ts comments := by
  have htokenState : (s.tokens, s.restoredTokens) = ts.foldl (Task.gather coords)
      (.ofList tokens, []) := hg.tokens
  have hcommentState : (s.comments, s.restoredComments) =
      ts.foldl (Task.gather coords) (.ofList comments, []) :=
    hg.comments
  rw [htokens, hcomments, VirtualScript.collect, VirtualScript.collect, ← htokenState,
    ← hcommentState]
  exact ⟨rfl, rfl⟩

/-- What a successful restore of a document did. -/
structure Outcome (source : Text) (woven : Woven) (scripts : List Fragment) (h : Arena)
    (program : NodeId)
    (tokens : List Token) (comments : List Comment) (r : Restored) (w : Workbench)
    (done : List Match) : Prop where
  forest : Forest woven.arena woven.roots
  standing : Standing source woven scripts h program w done
  finished : Finished h program woven.script woven.roots w r
  tasks : (done.map Match.task).Perm woven.script.tasks
  tokens : r.tokens = woven.script.collect (.ofText source) (done.map Match.task) tokens
  comments : r.comments = woven.script.collect (.ofText source) (done.map Match.task) comments

/-- A successful restore has an outcome, and the scopes are what the wrappers make of them. -/
theorem restore_reconciled {d : Template.Document} (hd : d.rangeFault? source = none)
    (ht : HostTree (weave (.ofText source) d .empty).arena h program)
    (hok : restore (.ofText source) (weave (.ofText source) d .empty).script h scopes program tokens
      comments (weave (.ofText source) d .empty).roots = .ok r) :
    ∃ scripts w done, Outcome source (weave (.ofText source) d .empty) scripts h program tokens
      comments r w done ∧
      Reconciled (weave (.ofText source) d .empty).script.tasks h program done scopes r.scopes := by
  obtain ⟨scripts, hlayout⟩ := weave_layout hd
  obtain ⟨s, w, hwalk, hempty, hclean, harena, hscopes, htokens, hcomments⟩ := restore_eq_ok hok
  obtain ⟨done, htasks, hwalked, hgathered⟩ := Walked.program_walked ht hlayout hwalk hempty
  have hfinished := hwalked.standing.finished hclean harena hscopes
  obtain ⟨htokens', hcomments'⟩ := hgathered.collect htokens hcomments
  refine ⟨scripts, s.bench, done,
    ⟨weave_forest source d, hwalked.standing, hfinished, htasks, htokens', hcomments'⟩, ?_⟩
  rw [hfinished.scopes]
  exact hwalked.scopes

end Loom
