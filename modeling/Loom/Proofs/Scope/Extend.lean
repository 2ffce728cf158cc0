import Loom.Proofs.Scope.Index

/-!
Graphs that extend others.

An edit that only adds leaves the scopes where they are and every object with what it has. All that
it may change of an old reference is to bind it, if it was free. This holds of any graph, whether
its links agree or not.
-/

open List

namespace Loom

variable {x : Reference} {r : ReferenceId} {s : ScopeId} {v : VariableId}

/-- A scope without its contents. -/
def Scope.frame (x : Scope) : Scope :=
  { x with vars := [], set := [], references := [], through := [] }

/-- The same scope with more in it. What passes through it is left open. -/
structure Scope.Extends (x x' : Scope) : Prop where
  frame : x'.frame = x.frame
  vars : x.vars <+: x'.vars
  set : x.set <+: x'.set
  references : x.references <+: x'.references

/-- The same variable with the same defining occurrences, and more references to it. -/
structure Variable.Extends (x x' : Variable) : Prop where
  same : { x' with references := x.references } = x
  references : x.references <+: x'.references

/-- The same reference, bound in the meantime if it was free. -/
structure Reference.Extends (x x' : Reference) : Prop where
  same : { x' with resolved := x.resolved } = x
  resolved : ∀ {v}, x.resolved = some v → x'.resolved = some v

/-- A bound reference that is made up and only reads or only writes. -/
structure Reference.MadeUp (x : Reference) : Prop where
  isVirtual : x.isVirtual = true
  live : x.removed = false
  bound : x.resolved.isSome = true
  access : x.access = .read ∨ x.access = .write

section Objects

theorem Scope.Extends.refl (x : Scope) : x.Extends x := ⟨rfl, prefix_rfl, prefix_rfl, prefix_rfl⟩

theorem Scope.Extends.trans {x y z : Scope} (h : x.Extends y) (h' : y.Extends z) : x.Extends z :=
  ⟨h'.frame.trans h.frame, h.vars.trans h'.vars, h.set.trans h'.set,
    h.references.trans h'.references⟩

theorem Variable.Extends.refl (x : Variable) : x.Extends x := ⟨rfl, prefix_rfl⟩

theorem Variable.Extends.trans {x y z : Variable} (h : x.Extends y) (h' : y.Extends z) :
    x.Extends z := by
  refine ⟨?_, h.references.trans h'.references⟩
  have hsame := congrArg (fun w : Variable => { w with references := x.references }) h'.same
  exact hsame.trans h.same

theorem Reference.Extends.refl (x : Reference) : x.Extends x := ⟨rfl, id⟩

theorem Reference.Extends.trans {y z : Reference} (h : x.Extends y) (h' : y.Extends z) :
    x.Extends z := by
  refine ⟨?_, fun hv => h'.resolved (h.resolved hv)⟩
  have hsame := congrArg (fun w : Reference => { w with resolved := x.resolved }) h'.same
  exact hsame.trans h.same

variable {x x' : Variable} {y y' : Reference}

theorem Variable.Extends.name (h : x.Extends x') : x'.name = x.name :=
  (congrArg Variable.name h.same :)

theorem Variable.Extends.scope (h : x.Extends x') : x'.scope = x.scope :=
  (congrArg Variable.scope h.same :)

theorem Variable.Extends.removed (h : x.Extends x') : x'.removed = x.removed :=
  (congrArg Variable.removed h.same :)

theorem Reference.Extends.name (h : y.Extends y') : y'.name = y.name :=
  (congrArg Reference.name h.same :)

theorem Reference.Extends.isVirtual (h : y.Extends y') : y'.isVirtual = y.isVirtual :=
  (congrArg Reference.isVirtual h.same :)

theorem Reference.Extends.removed (h : y.Extends y') : y'.removed = y.removed :=
  (congrArg Reference.removed h.same :)

theorem Reference.MadeUp.extends (h : y.MadeUp) (hy : y.Extends y') : y'.MadeUp where
  isVirtual := hy.isVirtual.trans h.isVirtual
  live := hy.removed.trans h.live
  bound := by
    obtain ⟨v, hv⟩ := Option.isSome_iff_exists.mp h.bound
    rw [hy.resolved hv]
    rfl
  access := by
    have haccess : y'.access = y.access := (congrArg Reference.access hy.same :)
    rw [haccess]
    exact h.access

end Objects

namespace ScopeGraph

/-- `g'` is `g` with variables added in the scopes of `home`, made-up references added, and free
references bound. -/
structure Extends (home : ScopeId → Prop) (g g' : ScopeGraph) : Prop where
  scopes_size : g'.scopes.size = g.scopes.size
  scope : ∀ s, (g.scopeAt s).Extends (g'.scopeAt s)
  nodes : g'.nodeScopes = g.nodeScopes
  vars_size : g.vars.size ≤ g'.vars.size
  variable_ : ∀ {v}, v < g.vars.size → (g.variableAt v).Extends (g'.variableAt v)
  newVariable : ∀ {v}, g.vars.size ≤ v → v < g'.vars.size →
    home (g'.variableAt v).scope ∧ (g'.variableAt v).removed = false
  references_size : g.references.size ≤ g'.references.size
  reference : ∀ {r}, r < g.references.size → (g.referenceAt r).Extends (g'.referenceAt r)
  newReference : ∀ {r}, g.references.size ≤ r → r < g'.references.size → (g'.referenceAt r).MadeUp
  filed : ∀ n, ∃ more, g'.identifierReferences.get n = g.identifierReferences.get n ++ more ∧
    ∀ r ∈ more, g.references.size ≤ r ∧ r < g'.references.size

theorem prefix_pushNew (xs : List Nat) (x : Nat) : xs <+: pushNew xs x := by
  unfold pushNew
  split
  · exact prefix_rfl
  · exact prefix_append ..

theorem setInsert_of_lookup_none {set : List (String × VariableId)} {name : String}
    (h : set.lookup name = none) : setInsert set name v = set ++ [(name, v)] := by
  induction set with
  | nil => rfl
  | cons e rest ih =>
    obtain ⟨n, w⟩ := e
    rw [lookup_cons] at h
    by_cases hn : name = n
    · simp [hn] at h
    · rw [beq_false_of_ne hn] at h
      rw [setInsert, if_neg (Ne.symm hn), ih h, cons_append]

theorem resolved_of_link {g : ScopeGraph} {q : ReferenceId} {w : VariableId}
    (h : ((g.link r v).referenceAt q).resolved = some w) :
    w = v ∨ (g.referenceAt q).resolved = some w := by
  have href : (g.link r v).referenceAt q =
      (g.modifyReference r ({ · with resolved := some v })).referenceAt q := rfl
  rw [href, referenceAt_modifyReference] at h
  split at h
  · exact .inl (Option.some.inj h).symm
  · exact .inr h

namespace Extends

variable {home home' : ScopeId → Prop} {g g' g'' : ScopeGraph}

theorem refl (g : ScopeGraph) : Extends home g g where
  scopes_size := rfl
  scope := fun _ => .refl _
  nodes := rfl
  vars_size := Nat.le_refl _
  variable_ := fun _ => .refl _
  newVariable := fun hle hlt => absurd hlt (Nat.not_lt_of_le hle)
  references_size := Nat.le_refl _
  reference := fun _ => .refl _
  newReference := fun hle hlt => absurd hlt (Nat.not_lt_of_le hle)
  filed := fun _ => ⟨[], by simp⟩

theorem trans (h : Extends home g g') (h' : Extends home g' g'') : Extends home g g'' where
  scopes_size := h'.scopes_size.trans h.scopes_size
  scope := fun s => (h.scope s).trans (h'.scope s)
  nodes := h'.nodes.trans h.nodes
  vars_size := Nat.le_trans h.vars_size h'.vars_size
  variable_ := fun hv => (h.variable_ hv).trans (h'.variable_ (Nat.lt_of_lt_of_le hv h.vars_size))
  newVariable := by
    intro v hle hlt
    by_cases hv : v < g'.vars.size
    · rw [(h'.variable_ hv).scope, (h'.variable_ hv).removed]
      exact h.newVariable hle hv
    · exact h'.newVariable (Nat.le_of_not_lt hv) hlt
  references_size := Nat.le_trans h.references_size h'.references_size
  reference :=
    fun hr => (h.reference hr).trans (h'.reference (Nat.lt_of_lt_of_le hr h.references_size))
  newReference := by
    intro r hle hlt
    by_cases hr : r < g'.references.size
    · exact (h.newReference hle hr).extends (h'.reference hr)
    · exact h'.newReference (Nat.le_of_not_lt hr) hlt
  filed := by
    intro n
    obtain ⟨more, hget, hmore⟩ := h.filed n
    obtain ⟨more', hget', hmore'⟩ := h'.filed n
    refine ⟨more ++ more', by rw [hget', hget, append_assoc], fun r hr => ?_⟩
    have hsize := h.references_size
    have hsize' := h'.references_size
    rcases mem_append.mp hr with hr | hr
    · have := hmore r hr
      omega
    · have := hmore' r hr
      omega

theorem mono (h : Extends home g g') (hhome : ∀ s, home s → home' s) : Extends home' g g' :=
  { h with newVariable := fun hle hlt => (h.newVariable hle hlt).imp_left (hhome _) }

theorem foldl {β : Type} {f : ScopeGraph → β → ScopeGraph} (bs : List β)
    (hf : ∀ g, ∀ b ∈ bs, Extends home g (f g b)) (g : ScopeGraph) :
    Extends home g (bs.foldl f g) := by
  induction bs generalizing g with
  | nil => exact .refl g
  | cons b bs ih =>
    exact (hf g b mem_cons_self).trans (ih (fun g b hb => hf g b (mem_cons_of_mem _ hb)) _)

/-! What follows for the objects of the old graph. -/

theorem frame (h : Extends home g g') (s : ScopeId) : (g'.scopeAt s).frame = (g.scopeAt s).frame :=
  (h.scope s).frame

theorem treeView (h : Extends home g g') : g'.treeView = g.treeView := by
  unfold ScopeGraph.treeView
  rw [h.scopes_size]
  congr 1
  funext s
  exact (congrArg (fun x : Scope => (x.upper, x.children, x.removed)) (h.frame s) :)

theorem kind (h : Extends home g g') (s : ScopeId) : (g'.scopeAt s).kind = (g.scopeAt s).kind :=
  (congrArg Scope.kind (h.frame s) :)

theorem topScope (h : Extends home g g') : g'.topScope = g.topScope := by
  have hempty : g'.scopes.isEmpty = g.scopes.isEmpty := by
    simp [Array.isEmpty, h.scopes_size]
  unfold ScopeGraph.topScope moduleScope?
  rw [hempty, children_congr h.treeView]
  simp only [h.kind]

/-! Single updates. -/

theorem modifyScope {f : Scope → Scope} (hf : (g.scopeAt s).Extends (f (g.scopeAt s))) :
    Extends home g (g.modifyScope s f) :=
  { Extends.refl g with
    scopes_size := size_modifyScope
    scope := by
      intro t
      rw [scopeAt_modifyScope]
      split
      · rename_i h
        rw [h.1]
        exact hf
      · exact .refl _ }

theorem modifyVariable {f : Variable → Variable}
    (hf : (g.variableAt v).Extends (f (g.variableAt v))) : Extends home g (g.modifyVariable v f) :=
  { (Extends.refl g : Extends home g g) with
    vars_size := Nat.le_of_eq (size_modifyVariable ..).symm
    variable_ := by
      intro w _
      rw [variableAt_modifyVariable]
      split
      · rename_i h
        rw [h.1]
        exact hf
      · exact .refl _
    newVariable := fun hle hlt => absurd (size_modifyVariable g v f ▸ hlt) (Nat.not_lt_of_le hle) }

theorem modifyReference {f : Reference → Reference}
    (hf : (g.referenceAt r).Extends (f (g.referenceAt r))) :
    Extends home g (g.modifyReference r f) :=
  { Extends.refl g with
    references_size := Nat.le_of_eq (size_modifyReference ..).symm
    reference := by
      intro q _
      rw [referenceAt_modifyReference]
      split
      · rename_i h
        rw [h.1]
        exact hf
      · exact .refl _
    newReference := fun hle hlt => absurd (size_modifyReference g r f ▸ hlt) (Nat.not_lt_of_le hle)
    filed := fun _ => ⟨[], by simp [ScopeGraph.modifyReference]⟩ }

/-- A new variable may be changed in any way that leaves it in its scope. -/
theorem modifyNew {f : Variable → Variable} (h : Extends home g g') (hv : g.vars.size ≤ v)
    (hf : ∀ x, (f x).scope = x.scope ∧ (f x).removed = x.removed) :
    Extends home g (g'.modifyVariable v f) :=
  { h with
    vars_size := by
      rw [size_modifyVariable]
      exact h.vars_size
    variable_ := by
      intro w hw
      have hne : ¬ (w = v ∧ v < g'.vars.size) := fun hwv => Nat.not_lt_of_le hv (hwv.1 ▸ hw)
      rw [variableAt_modifyVariable, if_neg hne]
      exact h.variable_ hw
    newVariable := by
      intro w hle hlt
      rw [size_modifyVariable] at hlt
      rw [field_modifyVariable Variable.scope fun x => (hf x).1,
        field_modifyVariable Variable.removed fun x => (hf x).2]
      exact h.newVariable hle hlt }

theorem addThroughs (scopes : List ScopeId) (r : ReferenceId) (g : ScopeGraph) :
    Extends home g (scopes.foldl (·.addThrough · r) g) :=
  foldl scopes (fun _ _ _ => modifyScope ⟨rfl, prefix_rfl, prefix_rfl, prefix_rfl⟩) g

theorem dropThrough (scopes : List ScopeId) (r : ReferenceId) (g : ScopeGraph) :
    Extends home g (g.dropThrough scopes r) :=
  foldl scopes (fun _ _ _ => modifyScope ⟨rfl, prefix_rfl, prefix_rfl, prefix_rfl⟩) g

theorem link (hr : ∀ w, (g.referenceAt r).resolved = some w → w = v) :
    Extends home g (g.link r v) := by
  have hbound : Extends home g (g.modifyReference r ({ · with resolved := some v })) := by
    refine modifyReference ⟨rfl, fun {w} hw => ?_⟩
    rw [hr w hw]
  exact hbound.trans (modifyVariable ⟨rfl, prefix_pushNew ..⟩)

/-! The edits of the dialect. -/

theorem pushVariable {x : Variable} (hhome : home x.scope) (hlive : x.removed = false) :
    Extends home g { g with vars := g.vars.push x } :=
  { (Extends.refl g : Extends home g g) with
    vars_size := by simp
    variable_ := by
      intro v hv
      have hat : ScopeGraph.variableAt { g with vars := g.vars.push x } v = g.variableAt v :=
        (getD_push ..).trans (if_neg (Nat.ne_of_lt hv))
      rw [hat]
      exact .refl _
    newVariable := by
      intro v hle hlt
      have hv : v = g.vars.size := by
        have hsize : v < g.vars.size + 1 := by simpa using hlt
        omega
      have hat : ScopeGraph.variableAt { g with vars := g.vars.push x } v = x := (getD_push ..).trans (if_pos hv)
      rw [hat]
      exact ⟨hhome, hlive⟩ }

theorem createVariable {name : String} (hhome : home s) (hnew : g.declared? s name = none) :
    Extends home g (g.createVariable s name).2 := by
  refine trans (pushVariable hhome rfl) (modifyScope ?_)
  refine ⟨rfl, prefix_append .., ?_, prefix_rfl⟩
  show (g.scopeAt s).set <+: setInsert (g.scopeAt s).set name g.vars.size
  rw [setInsert_of_lookup_none hnew]
  exact prefix_append ..

theorem ensureVariable {name : String} (hhome : home s) :
    Extends home g (g.ensureVariable s name).2 := by
  unfold ScopeGraph.ensureVariable
  split
  · exact .refl g
  · exact createVariable hhome ‹_›

theorem resolveThrough (g : ScopeGraph) (s : ScopeId) (name : String) (v : VariableId) :
    Extends home g (g.resolveThrough s name v) := by
  unfold ScopeGraph.resolveThrough
  have hpend : ∀ r ∈ (g.scopeAt s).through.filter fun r =>
      (g.referenceAt r).name == name && (g.referenceAt r).resolved.isNone,
      ∀ w, (g.referenceAt r).resolved = some w → w = v := by
    intro r hr w hw
    simp [hw] at hr
  generalize (g.scopeAt s).through.filter _ = pending at hpend
  -- A reference may be listed twice: the second time it is bound already, to the same variable.
  induction pending generalizing g with
  | nil => exact .refl g
  | cons r rest ih =>
    refine trans (trans (link (hpend r mem_cons_self)) (dropThrough ..)) (ih _ fun q hq w hw => ?_)
    rw [resolved_congr (view_dropThrough bindingView)] at hw
    exact (resolved_of_link hw).elim id (hpend q (mem_cons_of_mem _ hq) w)

theorem declareImplicit (name : String) (hhome : home s) :
    Extends home g (g.declareImplicit s name).2 :=
  trans (ensureVariable hhome) (resolveThrough ..)

theorem declare_fresh {name : String} (identifier : NodeId) (kind : DefinitionKind) (hhome : home s)
    (hnew : g.declared? s name = none) : Extends home g (g.declare s name identifier kind).2 := by
  have hensure : g.ensureVariable s name = g.createVariable s name := by
    rw [ScopeGraph.ensureVariable, hnew]
  rcases declare_cases g s name identifier kind with heq | heq <;> rw [heq, hensure]
  · exact createVariable hhome hnew
  · exact (createVariable hhome hnew).modifyNew (Nat.le_refl _) fun _ => ⟨rfl, rfl⟩

theorem declareReactive (a : Arena) (identifier : NodeId) (hhome : home s) :
    Extends home g (g.declareReactive a s identifier).2 := by
  rcases declareReactive_cases g a s identifier with heq | ⟨name, -, hnew, heq⟩ <;> rw [heq]
  · exact .refl g
  · exact (declare_fresh identifier .variable hhome hnew).trans (resolveThrough ..)

/-- Files a made-up reference, without a word to its scope. -/
theorem fileReference (hx : x.MadeUp) : Extends home g { g with
      references := g.references.push x
      identifierReferences := g.identifierReferences.push x.identifier g.references.size } :=
  { Extends.refl g with
    references_size := by simp
    reference := by
      intro r hr
      rw [referenceAt, referenceAt, getD_push, if_neg (Nat.ne_of_lt hr)]
      exact .refl _
    newReference := by
      intro r hle hlt
      have hr : r = g.references.size := by
        have hsize : r < g.references.size + 1 := by simpa using hlt
        omega
      rw [referenceAt, getD_push, if_pos hr]
      exact hx
    filed := by
      intro n
      simp only [NodeIndex.get_push]
      split
      · rename_i hn
        exact ⟨[g.references.size], by simp [hn]⟩
      · exact ⟨[], by simp⟩ }

theorem pushReference (hx : x.MadeUp) : Extends home g (g.pushReference x).2 :=
  (fileReference hx).trans (modifyScope ⟨rfl, prefix_rfl, prefix_rfl, prefix_append ..⟩)

theorem synthesizeReference (identifier : NodeId) (v : VariableId) (s : ScopeId) {access : Access}
    (haccess : access = .read ∨ access = .write) (g : ScopeGraph) :
    Extends home g (g.synthesizeReference identifier v s access).2 := by
  refine trans (trans (pushReference ⟨rfl, rfl, rfl, haccess⟩) (modifyVariable ⟨rfl, ?_⟩))
    (addThroughs ..)
  exact prefix_append ..

end Extends

end ScopeGraph

end Loom
