import Loom.Proofs.Restore.Walk

/-!
Every slot that a document asks for is planned once, and the node of a slot accepts what is put
there.

The walk over a parsed script moves nodes and fills or empties slots. No blank changes on the way,
so a markup node accepts at every turn what it accepted when it was woven. A wrapper is then undone
in full as soon as its statement has the form of the wrapper and the nodes for the fragments lie in
the fragments.
-/

open List

namespace Loom

variable {ps : List (Fragment × NodeId)} {w : Workbench} {task : Option Task} {rest : List Task}

theorem Workbench.shiftTargets_keeps {t : Task} {coords : Coordinates} {w' : Workbench}
    (h : t.shiftTargets coords ps w = .ok w') : w.arena.Keeps w'.arena := by
  obtain ⟨hsize, -, hkind, -⟩ := shiftTargets_still h
  exact .of_kind hsize hkind

/-- Parts whose owners accept them are put into their slots. -/
theorem Task.attachTargets_accepted (t : Task) (coords : Coordinates) {a : Arena}
    (hkeeps : a.Keeps w.arena)
    (hps : ∀ p ∈ ps, p.1.owner < a.size ∧ (a.kind p.1.owner).Accepts p.1.field) :
    ∃ w', t.attachTargets coords ps w = .ok w' ∧ a.Keeps w'.arena := by
  induction ps generalizing w with
  | nil => exact ⟨w, rfl, hkeeps⟩
  | cons p ps ih =>
    obtain ⟨hp, hrest⟩ := forall_mem_cons.mp hps
    have htrue := Arena.attach_of_accepts (hkeeps.accepts hp.1 hp.2) p.2
    have hkeeps' := hkeeps.trans (Arena.Keeps.attach p.1.owner p.2 p.1.field)
    unfold Task.attachTargets
    split
    case h_1 a' hattach =>
      rw [hattach] at hkeeps'
      exact ih hkeeps' hrest
    case h_2 a' hattach =>
      rw [hattach] at htrue
      cases htrue

namespace Woven

variable {woven : Woven}

/-- The owners of all fragments accept what is meant for them. -/
def Accepting (woven : Woven) : Prop := ∀ f ∈ taskFragments woven.script.tasks,
    f.owner < woven.arena.size ∧ (woven.arena.kind f.owner).Accepts f.field

theorem Accepting.pairs (h : woven.Accepting) {t : Task} (ht : t ∈ woven.script.tasks)
    (targets : List NodeId) (p : Fragment × NodeId) (hp : p ∈ t.fragments.zip targets) :
    p.1.owner < woven.arena.size ∧ (woven.arena.kind p.1.owner).Accepts p.1.field :=
  h p.1 (mem_taskFragments.mpr ⟨t, ht, (of_mem_zip hp).1⟩)

end Woven

namespace Restorer

variable {coords : Coordinates} {woven : Woven} {s s1 s' : Restorer} {t : Task} {n : NodeId}
  {fuel : Nat} {ns : List NodeId}

/-- On the walk over the nodes `ns` from `s`, the task `t` comes to be undone at the node `n`, in
the state `s'`. -/
inductive Undoes (coords : Coordinates) (t : Task) (n : NodeId) (s' : Restorer) :
    Nat → List NodeId → Restorer → Prop
  | here {fuel : Nat} {ns : List NodeId} {s : Restorer} {rest : List Task}
    (next : s.nextTask? (s.bench.arena.range n) = (some t, rest))
    (range : t.range = s.bench.arena.range n)
    (inside : walkAll coords fuel (s.bench.arena.children n) { s with tasks := rest } = .ok s') :
    Undoes coords t n s' (fuel + 1) (n :: ns) s
  | deeper {fuel : Nat} {m : NodeId} {ns : List NodeId} {s : Restorer} {task : Option Task}
    {rest : List Task} (next : s.nextTask? (s.bench.arena.range m) = (task, rest))
    (range : ∀ u ∈ task, u.range = s.bench.arena.range m)
    (inside : Undoes coords t n s' fuel (s.bench.arena.children m) { s with tasks := rest }) :
    Undoes coords t n s' (fuel + 1) (m :: ns) s
  | later {fuel : Nat} {m : NodeId} {ns : List NodeId} {s s1 : Restorer}
    (first : walk coords fuel m s = .ok s1) (rest : Undoes coords t n s' fuel ns s1) :
    Undoes coords t n s' fuel (m :: ns) s

/-- What the walk leaves as it is: its tasks are woven ones, and the markup nodes have their
blanks. -/
structure Intact (woven : Woven) (s : Restorer) : Prop where
  tasks : s.tasks ⊆ woven.script.tasks
  arena : woven.arena.Keeps s.bench.arena

namespace Intact

theorem nextTask? (h : Intact woven s) {r : Range} (hnext : s.nextTask? r = (task, rest)) :
    Intact woven { s with tasks := rest } ∧ ∀ t ∈ task, t ∈ woven.script.tasks := by
  rcases nextTask?_cases s r with ⟨hnone, -⟩ | ⟨t, rest', htasks, hsome, -⟩
  · obtain ⟨rfl, rfl⟩ := Prod.mk.inj (hnone.symm.trans hnext)
    exact ⟨h, by simp⟩
  · obtain ⟨rfl, rfl⟩ := Prod.mk.inj (hsome.symm.trans hnext)
    have hsub := h.tasks
    rw [htasks, cons_subset] at hsub
    exact ⟨⟨hsub.2, h.arena⟩, by simpa using hsub.1⟩

theorem finishTask (hacc : woven.Accepting) (h : Intact woven s) (ht : t ∈ woven.script.tasks)
    (hok : finishTask coords t n s = .ok s') : Intact woven s' := by
  obtain ⟨⟨_, _, _, _, hrestore⟩, htasks, -⟩ := finishTask_eq_ok hok
  obtain ⟨targets, w1, w2, -, hshift, hattach, hbench, -⟩ := Task.restore_eq_ok hrestore
  have hkeeps := h.arena.trans (Workbench.shiftTargets_keeps hshift)
  obtain ⟨w, hw, hkeeps'⟩ := t.attachTargets_accepted coords
    (w := { w1 with scopes := t.reconcile w1.arena n targets w1.scopes }) hkeeps
      (hacc.pairs ht targets)
  obtain rfl := Except.ok.inj (hw.symm.trans hattach)
  refine ⟨htasks ▸ h.tasks, ?_⟩
  rw [hbench]
  exact hkeeps'.trans (.detach n)

theorem walkAll_of
    (hwalk : ∀ {n s s'}, Intact woven s → walk coords fuel n s = .ok s' → Intact woven s')
    (h : Intact woven s) (hok : walkAll coords fuel ns s = .ok s') : Intact woven s' := by
  induction ns generalizing s with
  | nil =>
    unfold Restorer.walkAll at hok
    cases hok
    exact h
  | cons n ns ih =>
    unfold Restorer.walkAll at hok
    obtain ⟨s1, hn, hns⟩ := bind_eq_ok hok
    exact ih (hwalk h hn) hns

theorem walk (hacc : woven.Accepting) (h : Intact woven s)
    (hok : walk coords fuel n s = .ok s') : Intact woven s' := by
  induction fuel generalizing n s s' with
  | zero =>
    unfold Restorer.walk at hok
    cases hok
    exact h
  | succ fuel ih =>
    rcases walk_eq_ok hok with ⟨hwalk, -⟩ | ⟨t, rest, s1, htasks, -, hwalk, hfinish⟩
    · exact walkAll_of ih h hwalk
    · have hsub := h.tasks
      rw [htasks, cons_subset] at hsub
      have hrest : Intact woven { s with tasks := rest } := ⟨hsub.2, h.arena⟩
      exact (walkAll_of ih hrest hwalk).finishTask hacc hsub.1 hfinish

/-- Where a task comes to be undone, it is a woven one, and the markup nodes have their blanks. -/
theorem undoes (hacc : woven.Accepting) (h : Intact woven s)
    (hundoes : Undoes coords t n s' fuel ns s) : t ∈ woven.script.tasks ∧ Intact woven s' := by
  induction hundoes with
  | here next range inside =>
    obtain ⟨hrest, hmem⟩ := h.nextTask? next
    exact ⟨hmem t rfl, walkAll_of (walk hacc) hrest inside⟩
  | deeper next range inside ih => exact ih (h.nextTask? next).1
  | later first rest ih => exact ih (h.walk hacc first)

end Intact

/-- Where a task comes to be undone, nothing is in the way of its parts once they are moved. -/
theorem Undoes.attaches {h : Arena} {scopes : ScopeGraph} {tokens : List Token}
    {comments : List Comment} (hacc : woven.Accepting) (hkeeps : woven.arena.Keeps h)
    (hundoes : Undoes coords t n s fuel ns (start woven.script h scopes tokens comments))
    {targets : List NodeId}
    (hshift : t.shiftTargets coords (t.fragments.zip targets) s.bench = .ok w) :
    ∃ w', t.attachTargets coords (t.fragments.zip targets)
      { w with scopes := t.reconcile w.arena n targets w.scopes } = .ok w' := by
  have hstart : Intact woven (start woven.script h scopes tokens comments) :=
    ⟨List.Subset.refl _, hkeeps⟩
  obtain ⟨ht, hintact⟩ := hstart.undoes hacc hundoes
  have hshifted := hintact.arena.trans (Workbench.shiftTargets_keeps hshift)
  obtain ⟨w', hw', -⟩ := t.attachTargets_accepted coords
    (w := { w with scopes := t.reconcile w.arena n targets w.scopes }) hshifted
      (hacc.pairs ht targets)
  exact ⟨w', hw'⟩

/-! Failures of the walk. -/

/-- A task has another range than the node that it meets. -/
def Misplaced (coords : Coordinates) (t : Task) (e : Failure) : Prop :=
  ∃ typeName range, e = .shape (.wrapperMatched t.range typeName range) (.of coords t.anchor)

/-- The walk over the nodes `ns` from `s` stops with a failure: a task is in another place, or it
cannot be undone. -/
def Stops (coords : Coordinates) (e : Failure) (fuel : Nat) (ns : List NodeId) (s : Restorer) :
    Prop :=
  (∃ t, Misplaced coords t e) ∨ ∃ t n s', Undoes coords t n s' fuel ns s ∧
    finishTask coords t n s' = .error e

namespace Stops

variable {e : Failure}

theorem deeper (hnext : s.nextTask? (s.bench.arena.range n) = (task, rest))
    (hrange : ∀ u ∈ task, u.range = s.bench.arena.range n)
    (h : Stops coords e fuel (s.bench.arena.children n) { s with tasks := rest }) :
    Stops coords e (fuel + 1) (n :: ns) s := by
  rcases h with hmisplaced | ⟨t, m, s', hundoes, hfinish⟩
  · exact .inl hmisplaced
  · exact .inr ⟨t, m, s', .deeper hnext hrange hundoes, hfinish⟩

theorem later (hfirst : Restorer.walk coords fuel n s = .ok s1) (h : Stops coords e fuel ns s1) :
    Stops coords e fuel (n :: ns) s := by
  rcases h with hmisplaced | ⟨t, m, s', hundoes, hfinish⟩
  · exact .inl hmisplaced
  · exact .inr ⟨t, m, s', .later hfirst hundoes, hfinish⟩

theorem walk (hwalkAll : ∀ {ns s}, walkAll coords fuel ns s = .error e → Stops coords e fuel ns s)
    (h : walk coords (fuel + 1) n s = .error e) : Stops coords e (fuel + 1) (n :: ns) s := by
  unfold Restorer.walk at h
  dsimp only at h
  obtain ⟨⟨task, rest⟩, hnext⟩ : ∃ x, s.nextTask? (s.bench.arena.range n) = x := ⟨_, rfl⟩
  rw [hnext] at h
  cases task with
  | none => exact deeper hnext nofun (hwalkAll h)
  | some t =>
    dsimp only at h
    split at h
    case isTrue =>
      cases h
      exact .inl ⟨t, _, _, rfl⟩
    case isFalse hrange =>
      have hrange := Decidable.not_not.mp hrange
      rcases bind_eq_error h with hinside | ⟨s1, hinside, hfinish⟩
      · exact deeper hnext (fun u hu => Option.mem_some.mp hu ▸ hrange) (hwalkAll hinside)
      · exact .inr ⟨t, n, s1, .here hnext hrange hinside, hfinish⟩

theorem walkAll_of
    (hwalk : ∀ {n ns s}, Restorer.walk coords fuel n s = .error e → Stops coords e fuel (n :: ns) s)
    (h : walkAll coords fuel ns s = .error e) : Stops coords e fuel ns s := by
  induction ns generalizing s with
  | nil =>
    unfold Restorer.walkAll at h
    cases h
  | cons n ns ih =>
    unfold Restorer.walkAll at h
    rcases bind_eq_error h with hn | ⟨s1, hn, hns⟩
    · exact hwalk hn
    · exact later hn (ih hns)

theorem walkAll (h : walkAll coords fuel ns s = .error e) : Stops coords e fuel ns s := by
  induction fuel generalizing ns s with
  | zero =>
    refine walkAll_of (fun hn => ?_) h
    unfold Restorer.walk at hn
    cases hn
  | succ fuel ih => exact walkAll_of (walk ih) h

end Stops

end Restorer

/-- The slots that a document asks for over `base`, held against what weaving it left behind. -/
structure PlannedOnce (coords : Coordinates) (d : Template.Document) (base : Arena)
    (woven : Woven) : Prop where
  /-- The fragments are for the slots of the document, one for each. -/
  slots : ((taskFragments woven.script.tasks).map Fragment.pending).Perm
    ((d.embedded base.size).map Embedded.pending)
  /-- The nodes of the slots are those of the constructs. -/
  owners : ∀ e ∈ d.embedded base.size, e.StandsIn woven.arena
  once : (taskFragments woven.script.tasks).Pairwise fun f f' => f.slot = f'.slot → f.field = .param
  accepted : ∀ f ∈ taskFragments woven.script.tasks, ∀ child,
    (woven.arena.attach f.owner f.field child).1 = true
  /-- While a parse of the script is restored, putting nodes into their slots never fails. -/
  attaches : ∀ h scopes program tokens comments t n s targets w, woven.arena.Keeps h →
    Restorer.Undoes coords t n s h.size (h.children program)
      (.start woven.script h scopes tokens comments) →
    t.targets? s.bench.arena n = some targets →
    t.shiftTargets coords (t.fragments.zip targets) s.bench = .ok w →
    ∃ w', t.attachTargets coords (t.fragments.zip targets)
      { w with scopes := t.reconcile w.arena n targets w.scopes } = .ok w'
  /-- So a restoring that fails on the walk met a task in another place, a statement of another
  form, or a node outside of its fragment. -/
  failures : ∀ h scopes program tokens comments roots e, woven.arena.Keeps h →
    restore coords woven.script h scopes program tokens comments roots = .error e →
    (∃ s, Restorer.walkAll coords h.size (h.children program)
      (.start woven.script h scopes tokens comments) = .ok s) ∨
      (∃ t, Restorer.Misplaced coords t e) ∨
      ∃ t n s, Restorer.Undoes coords t n s h.size (h.children program)
        (.start woven.script h scopes tokens comments) ∧
        (t.targets? s.bench.arena n = none ∧ e = t.mismatch coords s.bench.arena n ∨
          ∃ targets, t.targets? s.bench.arena n = some targets ∧
            t.shiftTargets coords (t.fragments.zip targets) s.bench = .error e)

/-- The owners of the fragments of a document accept what is meant for them. -/
theorem weave_accepting (coords : Coordinates) (d : Template.Document) (arena : Arena) :
    (weave coords d arena).Accepting := by
  intro f hf
  have hmem := (weave_fragments coords d arena).mem_iff.mp (mem_map_of_mem hf)
  obtain ⟨e, he, hpend⟩ := mem_map.mp hmem
  have howner : e.owner = f.owner := congrArg Pending.owner hpend
  have hfield : e.field = f.field := congrArg Pending.field hpend
  obtain ⟨hlt, hkind, -⟩ := (weave_expands coords d arena).stands e he
  have haccepts := (Template.Markup.numberedList arena.size d.nodes).accepts e he
  rw [← howner, ← hfield, ← Kind.accepts_blank, hkind]
  exact ⟨hlt, haccepts⟩

/-- A wrapper that cannot be undone does not have the form of the wrapper, or has a node outside of
its fragment. -/
theorem Restorer.finishTask_eq_error {coords : Coordinates} {t : Task} {n : NodeId} {s : Restorer}
    {e : Failure} (h : finishTask coords t n s = .error e)
    (hattaches : ∀ targets w, t.targets? s.bench.arena n = some targets →
      t.shiftTargets coords (t.fragments.zip targets) s.bench = .ok w →
      ∃ w', t.attachTargets coords (t.fragments.zip targets)
        { w with scopes := t.reconcile w.arena n targets w.scopes } = .ok w') :
    t.targets? s.bench.arena n = none ∧ e = t.mismatch coords s.bench.arena n ∨
      ∃ targets, t.targets? s.bench.arena n = some targets ∧
        t.shiftTargets coords (t.fragments.zip targets) s.bench = .error e := by
  rcases bind_eq_error h with hrestore | ⟨_, -, hpure⟩
  case inr => cases hpure
  unfold Task.restore at hrestore
  split at hrestore
  case h_2 hnone =>
    cases hrestore
    exact .inl ⟨Option.eq_none_iff_forall_ne_some.mpr hnone, rfl⟩
  case h_1 targets htgts =>
    dsimp only at hrestore
    rcases bind_eq_error hrestore with hshift | ⟨w, hshift, hrest⟩
    · exact .inr ⟨targets, htgts, hshift⟩
    · obtain ⟨w', hattach⟩ := hattaches targets w htgts hshift
      rw [hattach] at hrest
      cases hrest

/-- Weaving plans every slot of a document once, for a node that accepts it. -/
theorem weave_plans_slots_once (coords : Coordinates) (d : Template.Document) (arena : Arena) :
    PlannedOnce coords d arena (weave coords d arena) := by
  have hacc := weave_accepting coords d arena
  refine ⟨weave_fragments coords d arena, (weave_expands coords d arena).stands,
    weave_slots_once coords d arena, fun f hf => Arena.attach_of_accepts (hacc f hf).2, ?_, ?_⟩
  · intro h scopes program tokens comments t n s targets w hkeeps hundoes _ hshift
    exact hundoes.attaches hacc hkeeps hshift
  · intro h scopes program tokens comments roots e hkeeps herror
    rcases bind_eq_error herror with hwalk | ⟨s, hwalk, -⟩
    case inr => exact .inl ⟨s, hwalk⟩
    rcases Restorer.Stops.walkAll hwalk with hmisplaced | ⟨t, n, s, hundoes, hfinish⟩
    · exact .inr (.inl hmisplaced)
    · refine .inr (.inr ⟨t, n, s, hundoes, Restorer.finishTask_eq_error hfinish ?_⟩)
      intro targets w _ hshift
      exact hundoes.attaches hacc hkeeps hshift

end Loom
