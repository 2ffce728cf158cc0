import Loom.Proofs.Scope.Lookup
import Loom.Script.Bindings

/-!
The scopes of a script are built and then looked up.

A walk over a script only builds: it adds scopes, declarations and references, always to scopes that
exist. This holds of each rule if it holds of the walks that the rule calls, so it holds of walks of
any depth. The graph of a script is therefore bound lexically.
-/

namespace Loom

open ScopeGraph ScopeStep ScopeStep

namespace ScopeGraph

variable {a : Arena} {g : ScopeGraph} {step : ScopeStep} {steps : List ScopeStep}

theorem buildingRun_append {more : List ScopeStep} (hrun : BuildingRun a steps g)
    (hmore : BuildingRun a more (run a steps g)) : BuildingRun a (steps ++ more) g := by
  induction steps generalizing g with
  | nil => exact hmore
  | cons step steps ih => exact ⟨hrun.1, ih hrun.2 hmore⟩

end ScopeGraph

namespace Script.Bindings

variable {a arena : Arena} {α β : Type} {n scope : Nat}

/-- A walk only builds when it meets at least `n` scopes. -/
def Builds (a : Arena) (n : Nat) (walk : Walk α) : Prop := ∀ g : ScopeGraph, Built n g →
    ∃ steps, BuildingRun a steps g ∧ (walk.run g).2 = run a steps g

namespace Builds

theorem pure (x : α) : Builds a n (pure x : Walk α) := fun _ _ => ⟨[], trivial, rfl⟩

theorem one {walk : Walk α} (step : ScopeStep)
    (hstep : ∀ g, n ≤ g.scopes.size → step.Building g ∧ (walk.run g).2 = (step.perform a g).2) :
    Builds a n walk :=
  fun g hg => ⟨[step], ⟨(hstep g hg.size_le).1, trivial⟩, (hstep g hg.size_le).2⟩

/-- One walk after another. What the second does may depend on how many scopes there are by then. -/
theorem bind {walk : Walk α} {next : α → Walk β} (h : Builds a n walk)
    (hnext : ∀ x, Builds a n (next x)) : Builds a n (walk >>= next) := by
  intro g hg
  obtain ⟨steps, hrun, heq⟩ := h g hg
  obtain ⟨more, hmore, hend⟩ := hnext (walk.run g).1 (walk.run g).2 (heq ▸ hg.run hrun)
  refine ⟨steps ++ more, buildingRun_append hrun (heq ▸ hmore), ?_⟩
  rw [run_append, ← heq, ← hend]
  rfl

theorem ite {c : Prop} [Decidable c] {walk other : Walk α} (h : Builds a n walk)
    (h' : Builds a n other) : Builds a n (if c then walk else other) := by
  split
  · exact h
  · exact h'

/-- A walk that is made under a condition, and what follows in both cases. -/
theorem when {c : Prop} [Decidable c] {walk : Walk PUnit} {next : PUnit → Walk β}
    (h : Builds a n walk)
    (hnext : ∀ x, Builds a n (next x)) : Builds a n (if c then walk >>= next else next ⟨⟩) :=
  .ite (h.bind hnext) (hnext _)

theorem forM {xs : List α} {walk : α → Walk PUnit} (h : ∀ x ∈ xs, Builds a n (walk x)) :
    Builds a n (xs.forM walk) := by
  induction xs with
  | nil => exact pure _
  | cons x xs ih =>
    exact (h x List.mem_cons_self).bind fun _ => ih fun y hy => h y (List.mem_cons_of_mem _ hy)

theorem forIn {xs : List α} {init : β} {body : α → β → Walk (ForInStep β)}
    (h : ∀ x ∈ xs, ∀ y, Builds a n (body x y)) : Builds a n (forIn xs init body) := by
  induction xs generalizing init with
  | nil => exact pure _
  | cons x xs ih =>
    rw [List.forIn_cons]
    refine (h x List.mem_cons_self init).bind fun next => ?_
    cases next with
    | done y => exact pure _
    | yield y => exact ih fun z hz => h z (List.mem_cons_of_mem _ hz)

/-- A walk in a new scope, which exists by then. -/
theorem inScope (kind : ScopeKind) (block : NodeId) {walk : ScopeId → Walk Unit}
    (hscope : scope < n) (h : ∀ {m inner : Nat}, n ≤ m → inner < m → Builds a m (walk inner)) :
    Builds a n (inScope kind block scope walk) := by
  intro g hg
  have hupper : ∀ u ∈ some scope, u < g.scopes.size := by
    intro u hu
    cases hu
    exact Nat.lt_of_lt_of_le hscope hg.size_le
  obtain ⟨steps, hrun, heq⟩ :=
    h (Nat.le_succ_of_le hg.size_le) (Nat.lt_succ_self _) _ (hg.addScope kind block hupper)
  exact ⟨.addScope kind block (some scope) :: steps, ⟨hupper, hrun⟩, heq⟩

/-- What is declared goes to a scope that exists. -/
theorem variableScope (kind : VariableKind) {next : ScopeId → Walk α} (hscope : scope < n)
    (h : ∀ {m owner : Nat}, n ≤ m → owner < m → Builds a m (next owner)) :
    Builds a n (variableScope kind scope >>= next) := by
  intro g hg
  have hlt := Nat.lt_of_lt_of_le hscope hg.size_le
  refine @h _ (if kind.isLexical then scope else (g.scopeAt scope).variableScope) hg.size_le ?_ g
    { hg with size_le := Nat.le_refl _ }
  split
  · exact hlt
  · exact hg.homed scope hlt

theorem declare (hscope : scope < n) (id : NodeId) (kind : DefinitionKind) :
    Builds a n (declare arena scope id kind) := by
  unfold Bindings.declare
  split
  case h_1 name _ =>
    exact one (.declare scope name id kind) fun g hn => ⟨Nat.lt_of_lt_of_le hscope hn, rfl⟩
  case h_2 => exact pure _

theorem refer (hscope : scope < n) (id : NodeId) (access : Access) (init : Bool) :
    Builds a n (refer arena scope id access init) := by
  unfold Bindings.refer
  split
  case h_1 name _ =>
    exact one (.addReference scope id name access init) fun g hn =>
      ⟨Nat.lt_of_lt_of_le hscope hn, rfl⟩
  case h_2 => exact pure _

end Builds

namespace Walker

/-- All walks of a walker only build, from any scope that exists. -/
structure Building (a : Arena) (w : Walker) : Prop where
  visit : ∀ {n scope : Nat}, scope < n → ∀ id, Builds a n (w.visit scope id)
  bind : ∀ {n scope : Nat} {d : Declaring}, scope < n → d.scope < n → ∀ id,
    Builds a n (w.bind scope d id)
  assign : ∀ {n scope : Nat}, scope < n → ∀ id, Builds a n (w.assign scope id)

namespace Building

variable {w : Walker}

section

variable (hw : w.Building a) (hscope : scope < n)

include hw hscope

theorem bindPattern {d : Declaring} (hd : d.scope < n) (id : NodeId) :
    Builds a n (w.bindPattern arena scope d id) := by
  unfold Walker.bindPattern
  split
  case h_1 => exact (Builds.declare hd _ _).bind fun _ => .ite (.refer hscope _ _ _) (.pure _)
  case h_2 =>
    refine Builds.bind (.forIn fun p _ _ => ?_) .pure
    split
    · exact Builds.when (hw.visit hscope _) fun _ =>
        (hw.bind hscope hd _).bind .pure
    · exact (hw.bind hscope hd _).bind .pure
    · exact .pure _
  case h_3 =>
    exact Builds.bind (.forIn fun _ _ _ => (hw.bind hscope hd _).bind .pure) .pure
  case h_4 => exact hw.bind hscope hd _
  case h_5 => exact (hw.bind hscope hd _).bind fun _ => hw.visit hscope _
  case h_6 => exact .pure _

theorem assignPattern (id : NodeId) : Builds a n (w.assignPattern arena scope id) := by
  unfold Walker.assignPattern
  split
  case h_1 => exact .refer hscope _ _ _
  case h_2 =>
    refine Builds.bind (.forIn fun p _ _ => ?_) .pure
    split
    · exact Builds.when (hw.visit hscope _) fun _ =>
        (hw.assign hscope _).bind .pure
    · exact (hw.assign hscope _).bind .pure
    · exact .pure _
  case h_3 =>
    exact Builds.bind (.forIn fun _ _ _ => (hw.assign hscope _).bind .pure) .pure
  case h_4 => exact hw.assign hscope _
  case h_5 => exact (hw.assign hscope _).bind fun _ => hw.visit hscope _
  case h_6 => exact hw.visit hscope _

theorem visitAll (ids : List NodeId) : Builds a n (w.visitAll scope ids) :=
  .forM fun id _ => hw.visit hscope id

theorem visitMember (key : NodeId) (value : Option NodeId) (computed : Bool) :
    Builds a n (w.visitMember scope key value computed) :=
  Builds.when (hw.visit hscope key) fun _ => hw.visitAll hscope _

theorem visitVariables (kind : VariableKind) (declarations : List NodeId) :
    Builds a n (w.visitVariables arena scope kind declarations) := by
  refine Builds.variableScope kind hscope fun hle howner => ?_
  have hscope := Nat.lt_of_lt_of_le hscope hle
  refine Builds.bind (.forIn fun d _ _ => ?_) .pure
  split
  · exact (hw.bind hscope howner _).bind fun _ => (hw.visitAll hscope _).bind .pure
  · exact .pure _

theorem visitFunction (params : List NodeId) (body : NodeId) :
    Builds a n (w.visitFunction arena scope params body) := by
  refine Builds.bind (.forM fun p _ => hw.bind hscope hscope p) fun _ => ?_
  split
  · exact hw.visitAll hscope _
  · exact hw.visit hscope body

theorem visitLoopHead (left : NodeId) : Builds a n (w.visitLoopHead arena scope left) := by
  unfold Walker.visitLoopHead
  split
  case h_1 kind declarations _ =>
    refine Builds.variableScope kind hscope fun hle howner => ?_
    refine Builds.bind (.forIn fun d _ _ => ?_) .pure
    split
    · exact (hw.bind (Nat.lt_of_lt_of_le hscope hle) howner _).bind .pure
    · exact .pure _
  case h_2 => exact hw.assign hscope left

end

theorem visitLoop (hscope : scope < n) (loop : NodeId) (head : Option NodeId)
    {parts : ScopeId → Walk Unit}
    (hparts : ∀ {m inner : Nat}, n ≤ m → inner < m → Builds a m (parts inner)) :
    Builds a n (visitLoop arena scope loop head parts) :=
  .ite (.inScope .for loop hscope hparts) (hparts (Nat.le_refl _) hscope)

theorem visitClass (hw : w.Building a) (hscope : scope < n) (node : NodeId) (form : DefinitionForm)
    (id superClass : Option NodeId) (body : NodeId) :
    Builds a n (w.visitClass arena scope node form id superClass body) := by
  refine Builds.when (.forM fun _ _ => .declare hscope _ _) fun _ => ?_
  refine .inScope .classBody node hscope fun _ hinner => ?_
  exact Builds.bind (.forM fun _ _ => .declare hinner _ _) fun _ =>
    (hw.visitAll hinner _).bind fun _ => hw.visit hinner body

theorem visitImport (hscope : scope < n) (specifiers : List NodeId) :
    Builds a n (visitImport arena scope specifiers) := by
  refine .forM fun s _ => ?_
  split
  · exact .declare hscope _ _
  · exact .declare hscope _ _
  · exact .declare hscope _ _
  · exact .pure _

theorem visitExport (hscope : scope < n) (specifiers : List NodeId) :
    Builds a n (visitExport arena scope specifiers) := by
  refine .forM fun s _ => ?_
  split
  · exact .refer hscope _ _ _
  · exact .pure _

theorem visitNode (hw : w.Building a) (hscope : scope < n) (node : NodeId) :
    Builds a n (w.visitNode arena scope node) := by
  unfold Walker.visitNode
  split
  case h_1 => exact .refer hscope _ _ _
  case h_2 => exact hw.visitVariables hscope _ _
  case h_3 =>
    refine Builds.when (.forM fun _ _ => .declare hscope _ _) fun _ => ?_
    refine .inScope .function node hscope fun _ hinner => ?_
    exact Builds.when (.forM fun _ _ => .declare hinner _ _) fun _ => hw.visitFunction hinner _ _
  case h_4 => exact .inScope .function node hscope fun _ hinner => hw.visitFunction hinner _ _
  case h_5 => exact .inScope .block node hscope fun _ hinner => hw.visitAll hinner _
  case h_6 => exact .inScope .classStaticBlock node hscope fun _ hinner => hw.visitAll hinner _
  case h_7 => exact visitLoop hscope node _ fun _ hinner => hw.visitAll hinner _
  case h_8 | h_9 =>
    exact visitLoop hscope node _ fun _ hinner =>
      (hw.visitLoopHead hinner _).bind fun _ => hw.visitAll hinner _
  case h_10 =>
    exact (hw.visit hscope _).bind fun _ => .inScope .switch node hscope
      fun _ hinner => hw.visitAll hinner _
  case h_11 =>
    refine .inScope .catch node hscope fun _ hinner => ?_
    exact Builds.bind (.forM fun _ _ => hw.bind hinner hinner _) fun _ => hw.visit hinner _
  case h_12 => exact hw.visitClass hscope _ _ _ _ _
  case h_13 => exact visitImport hscope _
  case h_14 => exact (hw.visitAll hscope _).bind fun _ => .ite (visitExport hscope _) (.pure _)
  case h_15 | h_16 | h_17 | h_18 => exact .pure _
  case h_19 => exact hw.visit hscope _
  case h_20 op left right _ =>
    have hright : ∀ _ : PUnit, Builds a n (w.visit scope right) := fun _ => hw.visit hscope right
    exact .ite ((hw.assign hscope left).bind hright)
      (.ite ((Builds.refer hscope left _ _).bind hright) ((hw.visit hscope left).bind hright))
  case h_21 => exact .ite (.refer hscope _ _ _) (hw.visit hscope _)
  case h_22 | h_23 | h_24 => exact hw.visitMember hscope _ _ _
  case h_25 => exact (hw.visit hscope _).bind fun _ => .ite (hw.visit hscope _) (.pure _)
  case h_26 =>
    split
    case h_4 => exact .pure _
    all_goals exact .forM fun _ _ => .declare hscope _ _
  case h_27 => exact hw.visitAll hscope _

end Building

/-- Walkers of any depth only build. -/
theorem building_ofDepth (a arena : Arena) (depth : Nat) : (ofDepth arena depth).Building a := by
  induction depth with
  | zero => exact ⟨fun _ _ => .pure _, fun _ _ _ => .pure _, fun _ _ => .pure _⟩
  | succ depth ih =>
    exact ⟨ih.visitNode, fun hscope hd => ih.bindPattern hscope hd,
      ih.assignPattern⟩

end Walker

end Script.Bindings

namespace ScopeGraph

/-- A graph that was built from nothing, and whose references were then looked up, each one once. -/
def LookedUp (a : Arena) (steps : List ScopeStep) (order : List ReferenceId) (g : ScopeGraph) :
    Prop :=
  BuildingRun a steps .empty ∧ order.Perm (List.range (run a steps .empty).references.size) ∧
    g = resolveAll order (run a steps .empty)

theorem LookedUp.resolved {a : Arena} {steps : List ScopeStep} {order : List ReferenceId}
    {g : ScopeGraph}
    (h : LookedUp a steps order g) : g.Resolved ∧ g.skeleton = (run a steps .empty).skeleton := by
  obtain ⟨hbuild, horder, rfl⟩ := h
  exact (Built.empty.run hbuild).resolveAll horder

end ScopeGraph

namespace Script.Bindings

/-- The graph of a script is built by a walk over it and then looked up in the order of the
references. -/
theorem lookedUp_scopesOf (a arena : Arena) (program : NodeId) (sourceType : SourceType) :
    ∃ steps order, LookedUp a steps order (scopesOf arena program sourceType) := by
  have hwalk := Walker.building_ofDepth a arena arena.size
  have hlater : ∀ (first : List ScopeStep) (scope : ScopeId) (statements : List NodeId),
      BuildingRun a first .empty → scope < (run a first .empty).scopes.size →
      ∃ steps, BuildingRun a steps .empty ∧ run a steps .empty =
        (((Walker.ofDepth arena arena.size).visitAll scope statements).run (run a first .empty)).2 := by
    intro first scope statements hfirst hscope
    obtain ⟨steps, hsteps, heq⟩ := hwalk.visitAll hscope statements _
      { Built.empty.run hfirst with size_le := Nat.le_refl _ }
    exact ⟨first ++ steps, buildingRun_append hfirst hsteps, by rw [run_append, heq]⟩
  have hlooked : ∀ {g : ScopeGraph},
      (∃ steps, BuildingRun a steps .empty ∧ run a steps .empty = g) →
      ∃ steps order, LookedUp a steps order (resolveAll (List.range g.references.size) g) := by
    rintro g ⟨steps, hsteps, rfl⟩
    exact ⟨steps, _, hsteps, .refl _, rfl⟩
  cases sourceType with
  | module =>
    exact hlooked (hlater [.addScope .global program none, .addScope .module program (some 0)] 1 _
      ⟨nofun, by intro u hu; cases hu; exact Nat.zero_lt_one, trivial⟩ Nat.one_lt_two)
  | script =>
    exact hlooked (hlater [.addScope .global program none] 0 _ ⟨nofun, trivial⟩ Nat.zero_lt_one)

end Script.Bindings

/-- References that are looked up after building are bound lexically, whatever the order of the
look-ups, and two orders differ at most in the order of the lists. The scopes of scripts are graphs
of this kind. -/
theorem resolution_is_lookup (a : Arena) :
    (∀ steps order order' g g', LookedUp a steps order g → LookedUp a steps order' g' →
      g.Resolved ∧ SameLinks g g') ∧
      ∀ arena program sourceType, ∃ steps order,
        LookedUp a steps order (Script.Bindings.scopesOf arena program sourceType) := by
  refine ⟨fun steps order order' g g' h h' => ?_, Script.Bindings.lookedUp_scopesOf a⟩
  obtain ⟨hres, hskel⟩ := h.resolved
  obtain ⟨hres', hskel'⟩ := h'.resolved
  exact ⟨hres, hres.sameLinks hres' (hskel.trans hskel'.symm)⟩

/-- A function in a module. Inside it a name is used before the function declares it, another one
means the variable of the module, and a third one means nothing. -/
def shadowingRun : List ScopeStep :=
  [.addScope .global 0 none, .addScope .module 0 (some 0), .addReference 1 1 "x" .write true,
    .declare 1 "x" 1 .variable, .addScope .function 2 (some 1), .addReference 2 3 "x" .read false,
    .addReference 2 4 "y" .read false, .addReference 2 5 "z" .read false,
    .declare 2 "x" 6 .variable, .declare 1 "y" 7 .variable]

theorem resolution_is_lookup_shadowing :
    ((resolveAll [2, 3, 1, 0] (run default shadowingRun .empty)).referenceAt 1).resolved = some 1 ∧
      (resolveAll [2, 3, 1, 0] (run default shadowingRun .empty)).Resolved ∧
      SameLinks (resolveAll [2, 3, 1, 0] (run default shadowingRun .empty))
        (resolveAll [0, 1, 2, 3] (run default shadowingRun .empty)) := by
  have hbuild : BuildingRun default shadowingRun .empty := by decide +kernel
  have hfirst : LookedUp default shadowingRun [2, 3, 1, 0] _ := ⟨hbuild, by decide +kernel, rfl⟩
  have hsecond : LookedUp default shadowingRun [0, 1, 2, 3] _ := ⟨hbuild, by decide +kernel, rfl⟩
  exact ⟨by decide +kernel, (resolution_is_lookup default).1 _ _ _ _ _ hfirst hsecond⟩

end Loom
