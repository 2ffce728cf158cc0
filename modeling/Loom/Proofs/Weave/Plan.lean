import Loom.Proofs.Tree.Arena
import Loom.Proofs.Weave.Slots

/-!
The plan of a document: the tasks and fragments that weaving leaves behind.

A draft grows by scaffolding, by copies and by wrappers around what was written since their start.
What holds of the tasks follows from these rules, whichever construct used them. The wrappers that
weaving makes are brought into this form here.
-/

open List

namespace Loom

open Fragment

variable {owner : NodeId} {anchor n n' : Nat} {action : Action} {d d1 d2 : Draft}
  {closed closed' : Bool}
  {idle idle' rest : List NodeId} {fs fs' : List Fragment} {ps ps' : List Pending}
    {ts ts' : List Task}

/-! What a draft grows by. -/

/-- Steps lead from one draft to another. The fragments `fs` wait for their wrapper, the wrappers
`ts` are finished. When the flag is set, scaffolding stands after the fragments. -/
inductive Weft : Draft → Bool → List Fragment → List Task → Draft → Prop
  | nil (d : Draft) : Weft d true [] [] d
  | text {d d1 : Draft} {closed : Bool} {fs : List Fragment} {ts : List Task} {text : String}
      (h : Weft d closed fs ts d1) (htext : text ≠ "") : Weft d true fs ts (d1.synthetic text)
  | copy {d d1 : Draft} {fs : List Fragment} {ts : List Task} (h : Weft d true fs ts d1)
    (owner : NodeId)
      (field : SlotField) (r : Range) :
      Weft d false (fs ++ [(d1.copyFragment owner field r).1]) ts (d1.copyFragment owner field r).2
  | wrap {d d1 d2 : Draft} {closed : Bool} {fs fs' : List Fragment} {ts ts' : List Task}
    {before after : String}
      (h : Weft d true fs ts d1) (hbefore : before ≠ "") (hinside : Weft (d1.synthetic before) closed fs' ts' d2)
      (hafter : after ≠ "") (anchor : Nat) (action : Action) :
      Weft d true fs (ts ++ (ts' ++ [⟨⟨d1.offset, (d2.synthetic after).offset⟩, anchor, fs', action⟩]))
        ((d2.synthetic after).pushTask d1.offset anchor fs' action)

namespace Weft

theorem trans (h : Weft d true fs ts d1) (h' : Weft d1 closed fs' ts' d2) :
    Weft d closed (fs ++ fs') (ts ++ ts') d2 := by
  induction h' with
  | nil d1 =>
    rw [append_nil, append_nil]
    exact h
  | text _ htext ih => exact (ih h).text htext
  | copy _ owner field r ih =>
    rw [← append_assoc]
    exact (ih h).copy owner field r
  | wrap _ hbefore hinside hafter anchor action ih _ =>
    rw [← append_assoc ts]
    exact (ih h).wrap hbefore hinside hafter anchor action

theorem tasks_eq (h : Weft d closed fs ts d1) : d1.tasks = d.tasks ++ ts := by
  induction h with
  | nil d => exact (append_nil _).symm
  | text _ _ ih | copy _ _ _ _ ih => exact ih
  | wrap _ _ _ _ anchor action ih ih' =>
    simp only [Draft.pushTask, Draft.synthetic] at ih' ⊢
    rw [ih', ih, append_assoc, append_assoc]

/-- Copies of ranges that fit the source are laid out apart. -/
theorem stretch (h : Weft d closed fs ts d1)
    (hvalid : ∀ f ∈ fs ++ taskFragments ts, Template.validRange d.source f.source) :
    Stretch d d1 fs ts ∧ (closed = true → Stretch.Closed d1 fs) := by
  induction h with
  | nil d => exact ⟨.refl d, fun _ _ hf => absurd hf not_mem_nil⟩
  | text _ htext ih =>
    obtain ⟨hstretch, -⟩ := ih hvalid
    exact ⟨hstretch.synthetic _, fun _ => hstretch.closed_synthetic htext⟩
  | copy _ owner field r ih =>
    obtain ⟨hstretch, hclosed⟩ := ih fun f hf => hvalid f (by
      simp only [mem_append] at hf ⊢
      exact hf.imp .inl id)
    have hr : Template.validRange _ r := hvalid _
      (mem_append_left _ (mem_append_right _ (mem_singleton.mpr rfl)))
    rw [← hstretch.source] at hr
    have hall := hstretch.join (hclosed rfl) (Stretch.copyFragment owner field hr)
    rw [append_nil] at hall
    exact ⟨hall, nofun⟩
  | wrap _ hbefore _ hafter anchor action ih ih' =>
    simp only [taskFragments, flatMap_append, flatMap_singleton, forall_mem_append] at hvalid
    obtain ⟨hfs, hts, hts', hfs'⟩ := hvalid
    obtain ⟨hstretch, hclosed⟩ := ih (forall_mem_append.mpr ⟨hfs, hts⟩)
    rw [← hstretch.source] at hts' hfs'
    have hwrapped :=
      (ih' (forall_mem_append.mpr ⟨hfs', hts'⟩)).1.close hbefore _ hafter anchor action
    have hall := hstretch.join (hclosed rfl) hwrapped
    rw [append_nil] at hall
    exact ⟨hall, fun _ f hf => Nat.lt_of_lt_of_le (hclosed rfl f hf) hwrapped.offset_le⟩

end Weft

/-! The tasks. -/

/-- Different nodes with numbers from `n` up to `n'`. -/
structure Fresh (n n' : Nat) (os : List NodeId) : Prop where
  nodup : os.Nodup
  within : ∀ o ∈ os, n ≤ o ∧ o < n'

namespace Fresh

variable {m : Nat} {os os' : List NodeId}

theorem append (h : Fresh n m os) (h' : Fresh m n' os') (hle : n ≤ m) (hle' : m ≤ n') :
    Fresh n n' (os ++ os') := by
  refine ⟨nodup_append.mpr ⟨h.nodup, h'.nodup, fun o ho o' ho' heq => ?_⟩,
    forall_mem_append.mpr ⟨?_, ?_⟩⟩
  · exact Nat.not_lt.mpr (h'.within o' ho').1 (heq ▸ (h.within o ho).2)
  · exact fun o ho => ⟨(h.within o ho).1, Nat.lt_of_lt_of_le (h.within o ho).2 hle'⟩
  · exact fun o ho => ⟨Nat.le_trans hle (h'.within o ho).1, (h'.within o ho).2⟩

theorem perm (h : Fresh n n' os) (hperm : os.Perm os') : Fresh n n' os' :=
  ⟨hperm.nodup_iff.mp h.nodup, fun o ho => h.within o (hperm.mem_iff.mpr ho)⟩

theorem left (h : Fresh n n' (os ++ os')) : Fresh n n' os :=
  ⟨(nodup_append.mp h.nodup).1, fun o ho => h.within o (mem_append_left _ ho)⟩

end Fresh

/-- Tasks for the parts `ps`, made while the arena grew from `n` to `n'` nodes. New nodes own their
scopes, other than those of `idle`. -/
structure Plans (idle : List NodeId) (ps : List Pending) (n n' : Nat) (ts : List Task) : Prop where
  le : n ≤ n'
  parts : ((taskFragments ts).map pending).Perm ps
  owners : Fresh n n' (ts.flatMap (·.action.owners) ++ idle)
  fits : ∀ t ∈ ts, t.action.Fits (t.fragments.map pending)

namespace Plans

variable {m : Nat} {t : Task}

theorem append (h : Plans idle ps n m ts) (h' : Plans idle' ps' m n' ts') :
    Plans (idle ++ idle') (ps ++ ps') n n' (ts ++ ts') := by
  refine ⟨Nat.le_trans h.le h'.le, ?_, ?_, forall_mem_append.mpr ⟨h.fits, h'.fits⟩⟩
  · rw [taskFragments_append, map_append]
    exact h.parts.append h'.parts
  · refine (h.owners.append h'.owners h.le h'.le).perm ?_
    rw [flatMap_append, append_assoc, append_assoc]
    refine .append_left _ ?_
    rw [← append_assoc, ← append_assoc]
    exact .append_right _ perm_append_comm

/-- Idle nodes become the owners of a wrapper. -/
theorem concat (h : Plans idle ps n n' ts) (howners : (t.action.owners ++ rest).Perm idle)
    (hfits : t.action.Fits (t.fragments.map pending)) :
    Plans rest (ps ++ t.fragments.map pending) n n' (ts ++ [t]) := by
  refine ⟨h.le, ?_, h.owners.perm ?_, forall_mem_append.mpr
    ⟨h.fits, forall_mem_singleton.mpr hfits⟩⟩
  · rw [taskFragments_append, map_append, taskFragments, taskFragments, flatMap_singleton]
    exact h.parts.append_right _
  · rw [flatMap_append, flatMap_singleton, append_assoc]
    exact howners.symm.append_left _

end Plans

namespace Weaving

/-- A step of weaving from `w` ends with a result and a state that satisfy `Q`. -/
def Ensures {α : Type} (m : Weaving α) (w : Weaver) (Q : α → Weaver → Prop) : Prop :=
  Q (m.run w).1 (m.run w).2

section Ensures

variable {α β : Type} {m : Weaving α} {f : α → Weaving β} {w : Weaver} {P : α → Weaver → Prop}
  {Q : β → Weaver → Prop}

theorem Ensures.bind (h : Ensures m w P) (hf : ∀ x w', P x w' → Ensures (f x) w' Q) :
    Ensures (m >>= f) w Q := hf _ _ h

theorem Ensures.pure {x : β} (h : Q x w) : Ensures (Pure.pure x : Weaving β) w Q := h

theorem Ensures.imp {P' : α → Weaver → Prop} (h : Ensures m w P) (himp : ∀ x w', P x w' → P' x w') :
    Ensures m w P' :=
  himp _ _ h

end Ensures

variable {w w1 w2 w' : Weaver}

/-! Steps that touch the draft alone. -/

section Draft

variable {β : Type} {Q : β → Weaver → Prop}

theorem get_bind {f : Weaver → Weaving β} (h : Ensures (f w) w Q) : Ensures (get >>= f) w Q := h

theorem offset_bind {f : Nat → Weaving β} (h : Ensures (f w.draft.offset) w Q) :
    Ensures (offset >>= f) w Q := h

theorem synthetic_bind {text : String} {f : Unit → Weaving β}
    (h : Ensures (f ()) { w with draft := w.draft.synthetic text } Q) :
    Ensures (synthetic text >>= f) w Q := h

theorem copyFragment_bind {field : SlotField} {r : Range} {f : Fragment → Weaving β}
    (h : Ensures (f (w.draft.copyFragment owner field r).1)
      { w with draft := (w.draft.copyFragment owner field r).2 } Q) :
    Ensures (copyFragment owner field r >>= f) w Q := h

theorem pushTask_bind {start : Nat} {fragments : List Fragment} {f : Unit → Weaving β}
    (h : Ensures (f ()) { w with draft := w.draft.pushTask start anchor fragments action } Q) :
    Ensures (pushTask start anchor fragments action >>= f) w Q := h

end Draft

/-- The tree part of a state: weaving text does not change it. -/
def SameTree (w w' : Weaver) : Prop := w'.arena = w.arena ∧ w'.roots = w.roots

theorem SameTree.trans (h : SameTree w w1) (h' : SameTree w1 w') : SameTree w w' :=
  ⟨h'.1.trans h.1, h'.2.trans h.2⟩

/-! Wrappers. -/

/-- What weaving left behind since there were the draft `d` and `n` nodes. -/
def Wove (d : Draft) (n : Nat) (closed : Bool) (idle : List NodeId) (fs : List Fragment)
    (ps : List Pending) (w : Weaver) : Prop :=
  ∃ ts, Weft d closed fs ts w.draft ∧ Plans idle ps n w.arena.size ts

namespace Wove

theorem start (w : Weaver) : Wove w.draft w.arena.size true [] [] [] w :=
  ⟨[], .nil _, Nat.le_refl _, .refl _, ⟨.nil, by simp⟩, by simp⟩

/-- New nodes; the last of them may own a wrapper. -/
theorem grow (h : Wove d n closed idle fs ps w) (hdraft : w'.draft = w.draft)
    (hsize : w.arena.size ≤ w'.arena.size) : Wove d n closed idle fs ps w' := by
  obtain ⟨ts, hweft, hplans⟩ := h
  have hnone : Plans [] [] w.arena.size w'.arena.size [] :=
    ⟨hsize, .refl _, ⟨.nil, by simp⟩, by simp⟩
  exact ⟨ts, hdraft ▸ hweft, by simpa using hplans.append hnone⟩

theorem alloc (h : Wove d n closed idle fs ps w) (hdraft : w'.draft = w.draft)
    (hsize : w'.arena.size = w.arena.size + 1) :
    Wove d n closed (idle ++ [w.arena.size]) fs ps w' := by
  obtain ⟨ts, hweft, hplans⟩ := h
  have hnode : Plans [w.arena.size] [] w.arena.size w'.arena.size [] :=
    ⟨by omega, .refl _, ⟨nodup_singleton _, by simp [hsize]⟩, by simp⟩
  exact ⟨ts, hdraft ▸ hweft, by simpa using hplans.append hnode⟩

theorem text (h : Wove d n closed idle fs ps w) (text : String) (htext : text ≠ "") :
    Wove d n true idle fs ps { w with draft := w.draft.synthetic text } := by
  obtain ⟨ts, hweft, hplans⟩ := h
  exact ⟨ts, hweft.text htext, hplans⟩

theorem copy (h : Wove d n true idle fs ps w) (owner : NodeId) (field : SlotField) (r : Range) :
    Wove d n false idle (fs ++ [(w.draft.copyFragment owner field r).1]) ps
      { w with draft := (w.draft.copyFragment owner field r).2 } := by
  obtain ⟨ts, hweft, hplans⟩ := h
  exact ⟨ts, hweft.copy owner field r, hplans⟩

theorem trans (h : Wove d n true idle fs ps w)
    (h' : Wove w.draft w.arena.size true idle' [] ps' w') :
    Wove d n true (idle ++ idle') fs (ps ++ ps') w' := by
  obtain ⟨ts, hweft, hplans⟩ := h
  obtain ⟨ts', hweft', hplans'⟩ := h'
  have hboth := hweft.trans hweft'
  rw [append_nil] at hboth
  exact ⟨ts ++ ts', hboth, hplans.append hplans'⟩

/-- What was written since `before` becomes a wrapper that idle nodes own. -/
theorem wrap (before after : String) (anchor : Nat) (action : Action)
    (h : Wove d n true idle fs ps w)
    (hinside : Wove (w.draft.synthetic before) w.arena.size closed idle' fs' ps' w1)
    (hbefore : before ≠ "")
    (hafter : after ≠ "") (howners : (action.owners ++ rest).Perm (idle ++ idle'))
    (hfits : action.Fits (fs'.map pending)) : Wove d n true rest fs (ps ++ ps' ++ fs'.map pending)
    { w1 with draft :=
  ((w1.draft.synthetic after).pushTask w.draft.offset anchor fs' action).synthetic "\n" } := by
  obtain ⟨ts, hweft, hplans⟩ := h
  obtain ⟨ts', hweft', hplans'⟩ := hinside
  refine ⟨_, (hweft.wrap hbefore hweft' hafter anchor action).text (by decide), ?_⟩
  rw [← append_assoc]
  exact (hplans.append hplans').concat (t := ⟨_, anchor, fs', action⟩) howners hfits

theorem perm (h : Wove d n closed idle fs ps w) (hperm : ps.Perm ps') :
    Wove d n closed idle fs ps' w := by
  obtain ⟨ts, hweft, hplans⟩ := h
  exact ⟨ts, hweft, { hplans with parts := hplans.parts.trans hperm }⟩

/-- Nodes that stay idle. -/
theorem drop (h : Wove d n closed idle fs ps w) : Wove d n closed [] fs ps w := by
  obtain ⟨ts, hweft, hplans⟩ := h
  exact ⟨ts, hweft, { hplans with owners := (append_nil _).symm ▸ hplans.owners.left }⟩

end Wove

section Wrappers

/-- Parts that are no parameters can be in any wrapper other than a loop. -/
theorem fits_of_field (hps : ∀ p ∈ ps, p.field ≠ .param)
    (haction : ∀ owner placeholder, action ≠ .eachBlock owner placeholder) : action.Fits ps :=
  ⟨fun owner placeholder heq => absurd heq (haction owner placeholder),
    fun p hp heq => absurd heq (hps p hp)⟩

theorem wrapExpression_wove {p : Pending} (hp : p.field ≠ .param) (h : Wove d n true idle fs ps w) :
    Ensures (wrapExpression p) w fun _ w' => SameTree w w' ∧
      Wove d n true idle fs (ps ++ [p]) w' := by
  refine ⟨⟨rfl, rfl⟩, ?_⟩
  have hinside :=
    (Wove.start { w with draft := w.draft.synthetic "(" }).copy p.owner p.field p.range
  have hall := h.wrap "(" ");" p.range.start .expression hinside (by decide) (by decide)
    (.of_eq (append_nil _).symm) (fits_of_field (forall_mem_singleton.mpr hp) nofun)
  rwa [append_nil] at hall

theorem wrapExpressions_wove (qs : List Pending) (hqs : ∀ q ∈ qs, q.field ≠ .param)
    (h : Wove d n true idle fs ps w) :
    Ensures (wrapExpressions qs) w fun _ w' => SameTree w w' ∧
      Wove d n true idle fs (ps ++ qs) w' := by
  induction qs generalizing w ps with
  | nil => exact ⟨⟨rfl, rfl⟩, (append_nil ps).symm ▸ h⟩
  | cons q qs ih =>
    obtain ⟨hq, hqs⟩ := forall_mem_cons.mp hqs
    refine (wrapExpression_wove hq h).bind ?_
    rintro _ w1 ⟨hsame, hwove⟩
    refine (ih hqs hwove).imp ?_
    rintro _ w2 ⟨hsame', hwove'⟩
    exact ⟨hsame.trans hsame', append_cons .. ▸ hwove'⟩

/-- Members of a list after others, each behind its comma. -/
theorem copyMore_wove (qs : List Pending) (h : Wove d n closed idle fs ps w) :
    Ensures (copyMore qs) w fun more w' => SameTree w w' ∧ more.map pending = qs ∧
      ∃ closed, Wove d n closed idle (fs ++ more) ps w' := by
  induction qs generalizing w fs closed with
  | nil => exact ⟨⟨rfl, rfl⟩, rfl, closed, (append_nil fs).symm ▸ h⟩
  | cons q qs ih =>
    refine synthetic_bind (copyFragment_bind ?_)
    refine (ih ((h.text ", " (by decide)).copy q.owner q.field q.range)).bind ?_
    rintro more w1 ⟨hsame, hmore, closed, hwove⟩
    refine .pure ⟨hsame, congrArg (q :: ·) hmore, closed, ?_⟩
    rw [append_assoc] at hwove
    exact hwove

theorem copyList_wove (qs : List Pending) (h : Wove d n true idle fs ps w) :
    Ensures (copyList qs) w fun more w' => SameTree w w' ∧ more.map pending = qs ∧
      ∃ closed, Wove d n closed idle (fs ++ more) ps w' := by
  cases qs with
  | nil => exact ⟨⟨rfl, rfl⟩, rfl, true, (append_nil fs).symm ▸ h⟩
  | cons q qs =>
    refine copyFragment_bind ((copyMore_wove qs (h.copy q.owner q.field q.range)).bind ?_)
    rintro more w1 ⟨hsame, hmore, closed, hwove⟩
    refine .pure ⟨hsame, congrArg (q :: ·) hmore, closed, ?_⟩
    rw [append_assoc] at hwove
    exact hwove

/-- The parameters of a loop, after the fragments `fs`. -/
theorem eachParameters_wove (id : NodeId) (context index : Option Range)
    (h : Wove d n true idle fs ps w) :
    Ensures (eachParameters id context index) w fun x w' => SameTree w w' ∧ x.1.map pending =
        context.toList.map (Pending.mk id .context) ++ index.toList.map (Pending.mk id .index) ∧
      ∃ closed, Wove d n closed idle (fs ++ x.1) ps w' := by
  cases context with
  | none =>
    cases index with
    | none => exact ⟨⟨rfl, rfl⟩, rfl, true, (append_nil fs).symm ▸ h⟩
    | some r =>
      have hcopy := ((h.text eachPlaceholder (by decide)).text ", " (by decide)).copy id .index r
      exact ⟨⟨rfl, rfl⟩, rfl, false, hcopy⟩
  | some r =>
    have hctx := h.copy id .context r
    cases index with
    | none => exact ⟨⟨rfl, rfl⟩, rfl, false, hctx⟩
    | some r' =>
      have hcopy := (hctx.text ", " (by decide)).copy id .index r'
      rw [append_assoc] at hcopy
      exact ⟨⟨rfl, rfl⟩, rfl, false, hcopy⟩

/-- A callback of an idle node around content that weaves the parts `qs`. -/
theorem wrapCallback_wove {params qs : List Pending} {content : Weaving Unit} {Q : Weaver → Prop}
    (h : Wove d n true [owner] fs ps w) (hparams : ∀ p ∈ params, p.field ≠ .param)
    (hcontent : ∀ w1, SameTree w w1 → Ensures content w1 fun _ w' =>
      Q w' ∧ Wove w1.draft w1.arena.size true [] [] qs w')
    (hQ : ∀ w' draft, Q w' → Q { w' with draft }) :
    Ensures (wrapCallback owner anchor params content) w fun _ w' =>
      Q w' ∧ Wove d n true [] fs (ps ++ (params ++ qs)) w' := by
  have hperm := mergeSort_perm params fun x y => x.range.start ≤ y.range.start
  refine offset_bind (synthetic_bind ?_)
  refine (copyList_wove _ (.start _)).bind ?_
  rintro more w1 ⟨hsame, hmore, _, hwove⟩
  refine synthetic_bind ?_
  have hopen : Wove (w.draft.synthetic "((") w.arena.size true [] more [] _ :=
    hwove.text ") => \x7b\n" (by decide)
  refine (hcontent { w1 with draft := w1.draft.synthetic ") => \x7b\n" } hsame).bind ?_
  rintro _ w2 ⟨hstate, hcontent⟩
  refine ⟨hQ w2 _ hstate, ?_⟩
  have hall := h.wrap "((" "\x7d);" anchor (.callback owner) (hopen.trans hcontent) (by decide)
    (by decide) (.refl _) (fits_of_field ?_ nofun)
  · rw [hmore, append_assoc] at hall
    exact hall.perm ((perm_append_comm.trans (hperm.append_right _)).append_left _)
  · rw [hmore]
    exact fun p hp => hparams p (hperm.mem_iff.mp hp)

end Wrappers

end Weaving

end Loom
