import Loom.Dialect
import Loom.Proofs.Restore.Coordinates
import Loom.Proofs.Restore.Reconcile

/-!
The dialect, edit by edit.

Each part of the dialect is a fold of edits of the scope graph. None of them touches the tree of the
scopes, so what the index and the references led to at the start is there all the time.
-/

open List

namespace Loom

open Dialect Sample

variable {identifier : NodeId} {access : Access} {target : NodeId × ScopeId} {s : ScopeId}
  {v : VariableId} {a : Arena} {g g' : ScopeGraph}

namespace ScopeStep

variable {β : Type} {f : ScopeGraph → β → List ScopeStep} {bs : List β}

/-- The edits for some objects, each read off the graph that those before leave. -/
def foldEdits (a : Arena) (f : ScopeGraph → β → List ScopeStep) :
    List β → ScopeGraph → List ScopeStep
  | [], _ => []
  | b :: bs, g => f g b ++ foldEdits a f bs (run a (f g b) g)

theorem run_foldEdits (step : ScopeGraph → β → ScopeGraph)
    (hstep : ∀ g b, run a (f g b) g = step g b) :
    run a (foldEdits a f bs g) g = bs.foldl step g := by
  induction bs generalizing g with
  | nil => rfl
  | cons b bs ih => rw [foldEdits, run_append, ih, hstep, foldl_cons]

end ScopeStep

/-- The graph of a fold that also collects names. -/
theorem foldl_collect {α β γ : Type} (f : γ → β → List α × γ) (bs : List β) (xs : List α) (g : γ) :
    (bs.foldl (fun p b => (p.1 ++ (f p.2 b).1, (f p.2 b).2)) (xs, g)).2 =
      bs.foldl (fun g b => (f g b).2) g := by
  induction bs generalizing xs g with
  | nil => rfl
  | cons b bs ih => exact ih ..

namespace ScopeGraph

/-- A sound graph with the scopes of `g`. -/
structure SoundOver (g g' : ScopeGraph) : Prop where
  sound : g'.Sound
  tree : g'.treeView = g.treeView

/-- Edits that are admissible and lead to a sound graph with the scopes of `g`. -/
structure SoundRun (g : ScopeGraph) (a : Arena) (steps : List ScopeStep) (g' : ScopeGraph) :
    Prop where
  admissible : ScopeStep.AdmissibleRun a steps g'
  result : SoundOver g (ScopeStep.run a steps g')

theorem SoundOver.live (h : SoundOver g g') (hs : g.LiveScope s) : g'.LiveScope s := by
  rw [liveScope_congr h.tree]
  exact hs

open ScopeStep

theorem SoundRun.nil (h : SoundOver g g') : SoundRun g a [] g' := ⟨trivial, h⟩

theorem SoundRun.singleton {step : ScopeStep} (hstep : step.Admissible g')
    (h : SoundOver g (step.perform a g').2) : SoundRun g a [step] g' :=
  ⟨admissibleRun_singleton.mpr hstep, h⟩

theorem SoundRun.append {steps more : List ScopeStep} (h : SoundRun g a steps g')
    (h' : SoundRun g a more (run a steps g')) : SoundRun g a (steps ++ more) g' := by
  refine ⟨admissibleRun_append.mpr ⟨h.admissible, h'.admissible⟩, ?_⟩
  rw [run_append]
  exact h'.result

theorem SoundRun.foldEdits {β : Type} {f : ScopeGraph → β → List ScopeStep} {bs : List β}
    (hstep : ∀ g', ∀ b ∈ bs, SoundOver g g' → SoundRun g a (f g' b) g') (h : SoundOver g g') :
    SoundRun g a (foldEdits a f bs g') g' := by
  induction bs generalizing g' with
  | nil => exact .nil h
  | cons b bs ih =>
    have hfirst := hstep g' b mem_cons_self h
    exact hfirst.append (ih (fun g' b hb => hstep g' b (mem_cons_of_mem _ hb)) hfirst.result)

theorem SoundOver.declareImplicit (h : SoundOver g g') (name : String) (hs : g.LiveScope s) :
    SoundOver g (g'.declareImplicit s name).2 :=
  ⟨h.sound.declareImplicit name (h.live hs), ((view_declareImplicit treeView) ..).trans h.tree⟩

theorem SoundOver.synthesizeReference (h : SoundOver g g')
    (hstep : (ScopeStep.synthesizeReference identifier v s access).Admissible g') :
    SoundOver g (g'.synthesizeReference identifier v s access).2 :=
  ⟨h.sound.synthesizeReference hstep.1 hstep.2.1 hstep.2.2,
    (view_synthesizeReference treeView).trans h.tree⟩

/-! Stores. -/

def resolveStoreEdits (g : ScopeGraph) (storeName : String) : List ScopeStep :=
  match g.declared? g.topScope (String.ofList (storeName.toList.drop 1)) with
  | none => []
  | some underlying =>
    let declared := g.declareImplicit g.topScope storeName
    .declareImplicit g.topScope storeName ::
      (declared.2.variableAt declared.1).references.map fun r =>
        .synthesizeReference (declared.2.referenceAt r).identifier underlying
          (declared.2.referenceAt r).source .read

theorem run_resolveStoreEdits (storeName : String) :
    run a (g.resolveStoreEdits storeName) g = (g.resolveStore storeName).2 := by
  unfold resolveStoreEdits resolveStore
  dsimp only
  cases g.declared? g.topScope (String.ofList (storeName.toList.drop 1)) with
  | none => rfl
  | some underlying =>
    dsimp only
    rw [run_cons, run, foldl_map, foldl_map]
    rfl

/-- References made to one variable from scopes that see it. -/
theorem SoundOver.synthesizeAll {rs : List ReferenceId}
    (site : ReferenceId → NodeId × ScopeId) (h : SoundOver g g') (hv : g'.LiveVariable v)
    (hsites : ∀ r ∈ rs, g'.LiveScope (site r).2 ∧ g'.Below (site r).2 (g'.variableAt v).scope) :
    SoundRun g a (rs.map fun r => .synthesizeReference (site r).1 v (site r).2 .read) g' := by
  induction rs generalizing g' with
  | nil => exact .nil h
  | cons r rs ih =>
    rw [forall_mem_cons] at hsites
    obtain ⟨⟨hlive, hbelow⟩, hrest⟩ := hsites
    have hstep : (ScopeStep.synthesizeReference (site r).1 v (site r).2 .read).Admissible g' :=
      ⟨hv, hlive, (h.sound.wellFormed.tree.mem_ancestors hlive).mpr hbelow⟩
    have htree : (run a [.synthesizeReference (site r).1 v (site r).2 .read] g').treeView = g'.treeView :=
      view_synthesizeReference treeView
    have hdecls : (run a [.synthesizeReference (site r).1 v (site r).2 .read] g').declView =
        g'.declView := view_synthesizeReference declView
    refine SoundRun.append (.singleton hstep (h.synthesizeReference hstep))
      (ih (h.synthesizeReference hstep) ?_ ?_)
    · rw [liveVariable_congr hdecls]
      exact hv
    · rw [liveScope_congr htree, below_congr_tree htree, scope_congr hdecls]
      exact hrest

theorem SoundOver.resolveStore (h : SoundOver g g') (storeName : String) :
    SoundRun g a (g'.resolveStoreEdits storeName) g' := by
  have hw := h.sound.wellFormed
  have htop := liveScope_topScope hw.tree h.sound.global
  unfold resolveStoreEdits
  split
  · exact .nil h
  · rename_i underlying hunder
    obtain ⟨hlive, hscope, -⟩ := hw.declarations.declared htop hunder
    obtain ⟨hlive', hscope'⟩ := scope_declareImplicit storeName (s := g'.topScope) hlive
    have hover : SoundOver g (g'.declareImplicit g'.topScope storeName).2 :=
      ⟨h.sound.declareImplicit storeName htop, ((view_declareImplicit treeView) ..).trans h.tree⟩
    have hbelow := fun r => hw.below_declareImplicit storeName r htop
    have hfirst : SoundRun g a [.declareImplicit g'.topScope storeName] g' := .singleton htop hover
    have hrun : run a [.declareImplicit g'.topScope storeName] g' =
        (g'.declareImplicit g'.topScope storeName).2 := rfl
    refine hfirst.append ?_
    rw [hrun]
    generalize g'.declareImplicit g'.topScope storeName = declared at hlive' hscope' hover hbelow ⊢
    refine SoundOver.synthesizeAll
      (fun r => ((declared.2.referenceAt r).identifier, (declared.2.referenceAt r).source)) hover
        hlive' fun r hr => ?_
    rw [hscope', hscope]
    exact hbelow r hr

end ScopeGraph

namespace Dialect

variable {name : String} {runesMode : Bool}

open ScopeStep ScopeGraph

variable {program : NodeId} {top : ScopeId}

/-! The edits of each part. -/

def declareGlobalEdits (s : ScopeId) (g : ScopeGraph) (name : String) : List ScopeStep :=
  if (g.throughNames globalScope).contains name then [.declareImplicit s name] else []

def declareTargetEdits (top : ScopeId) (g : ScopeGraph) (identifier : NodeId) : List ScopeStep :=
  match writtenReference? g identifier with
  | some r => if (g.referenceAt r).resolved.isSome then [] else [.declareReactive top identifier]
  | none => []

def markWritableEdits (a : Arena) (g : ScopeGraph) (target : NodeId × ScopeId) : List ScopeStep :=
  match (a.identifierName? target.1).bind (g.findVariable target.2) with
  | some v => [.synthesizeReference target.1 v target.2 .write]
  | none => []

def markSnippetEdits (a : Arena) (g : ScopeGraph) (child : NodeId) : List ScopeStep :=
  match a.kind child with
  | .markupSnippetBlock (some name) .. =>
    match (g.acquire? child).bind fun s => (g.scopeAt s).upper with
    | some upper =>
      match (a.identifierName? name).bind (g.findVariable upper) with
      | some v => [.synthesizeReference name v upper .read]
      | none => []
    | none => []
  | _ => []

theorem run_declareGlobalEdits :
    run a (declareGlobalEdits s g name) g = declareGlobal s g name := by
  unfold declareGlobalEdits declareGlobal
  cases (g.throughNames globalScope).contains name <;> rfl

theorem run_declareTargetEdits (top : ScopeId) (g : ScopeGraph) (identifier : NodeId) :
    run a (declareTargetEdits top g identifier) g = (declareTarget a top g identifier).2 := by
  unfold declareTargetEdits declareTarget
  cases writtenReference? g identifier with
  | none => rfl
  | some r =>
    dsimp only
    cases (g.referenceAt r).resolved.isSome with
    | true => rfl
    | false =>
      simp only [Bool.false_eq_true, if_false]
      split <;> rename_i heq <;> exact congrArg Prod.snd heq

theorem run_markWritableEdits (g : ScopeGraph) (target : NodeId × ScopeId) :
    run a (markWritableEdits a g target) g = (markWritable a g target).2 := by
  unfold markWritableEdits markWritable
  cases a.identifierName? target.1 with
  | none => rfl
  | some name =>
    simp only [Option.bind_some]
    cases g.findVariable target.2 name <;> rfl

theorem run_markSnippetEdits (g : ScopeGraph) (child : NodeId) :
    run a (markSnippetEdits a g child) g = markSnippet a g child := by
  unfold markSnippetEdits markSnippet
  cases a.kind child with
  | markupSnippetBlock name params children =>
    cases name with
    | none => rfl
    | some name =>
      cases (g.acquire? child).bind fun s => (g.scopeAt s).upper with
      | none => rfl
      | some upper =>
        dsimp only
        cases (a.identifierName? name).bind (g.findVariable upper) <;> rfl
  | _ => rfl

/-! On sound graphs all these edits are admissible. -/

section

variable (h : SoundOver g g')

include h

theorem declareGlobal_sound (hs : g.LiveScope s) (name : String) :
    SoundRun g a (declareGlobalEdits s g' name) g' := by
  unfold declareGlobalEdits
  split
  · exact .singleton (h.live hs) (h.declareImplicit name hs)
  · exact .nil h

theorem declareTarget_sound (htop : g.LiveScope top) (identifier : NodeId) :
    SoundRun g a (declareTargetEdits top g' identifier) g' := by
  unfold declareTargetEdits
  split
  · split
    · exact .nil h
    · refine .singleton (h.live htop) ⟨h.sound.declareReactive a identifier (h.live htop), ?_⟩
      exact (view_declareReactive treeView).trans h.tree
  · exact .nil h

theorem synthesize_sound (hs : g'.LiveScope s) {name : String}
    (hv : g'.findVariable s name = some v) :
    SoundRun g a [.synthesizeReference identifier v s access] g' := by
  obtain ⟨hvar, hmem⟩ := h.sound.wellFormed.findVariable hs hv
  exact .singleton ⟨hvar, hs, hmem⟩ (h.synthesizeReference ⟨hvar, hs, hmem⟩)

theorem markWritable_sound (hs : g.LiveScope target.2) :
    SoundRun g a (markWritableEdits a g' target) g' := by
  unfold markWritableEdits
  split
  · rename_i v hv
    obtain ⟨name, -, hv⟩ := Option.bind_eq_some_iff.mp hv
    exact synthesize_sound h (h.live hs) hv
  · exact .nil h

theorem markSnippet_sound (child : NodeId) : SoundRun g a (markSnippetEdits a g' child) g' := by
  unfold markSnippetEdits
  split
  · split
    · rename_i upper hupper
      obtain ⟨s, hs, hup⟩ := Option.bind_eq_some_iff.mp hupper
      have hlive := h.sound.wellFormed.tree.upper_live (h.sound.filed.acquire hs) hup
      split
      · rename_i v hv
        obtain ⟨name, -, hv⟩ := Option.bind_eq_some_iff.mp hv
        exact synthesize_sound h hlive hv
      · exact .nil h
    · exact .nil h
  · exact .nil h

end

/-- The scope that a bound place is used in is there: a number that stands for no reference leads to
the global scope. -/
theorem boundTarget_live (h : g.Sound) {id : NodeId} (hbound : boundTarget? a g id = some target) :
    g.LiveScope target.2 := by
  unfold boundTarget? at hbound
  split at hbound
  · split at hbound
    · obtain ⟨r, hr, rfl⟩ := Option.map_eq_some_iff.mp hbound
      have hfound := mem_of_find?_eq_some hr
      have hrem := (mem_filter.mp hfound).2
      by_cases hsize : r < g.references.size
      · exact h.wellFormed.places.source_live ⟨hsize, by simpa using hrem⟩
      · rw [referenceAt_of_size_le (not_lt.mp hsize)]
        exact h.global
    · cases hbound
  · cases hbound

/-- The targets of the reactive assignments at the top level. -/
def reactiveTargets (a : Arena) (program : NodeId) : List NodeId :=
  (a.children program).flatMap fun s => ((reactiveTarget? a s).map (bindingIdentifiers a)).getD []

/-- What the parent component writes to. -/
def writableTargets (a : Arena) (program : NodeId) (top : ScopeId) (runesMode : Bool)
    (g : ScopeGraph) : List (NodeId × ScopeId) :=
  ((a.children program).flatMap (statementProps a runesMode)).map (·, top) ++
    (a.descendants program).filterMap (boundTarget? a g)

/-- The nodes right inside components. -/
def componentChildren (a : Arena) (program : NodeId) : List NodeId :=
  (a.descendants program).flatMap fun id =>
    match a.kind id with
    | .markupElement _ .component _ _ children => children
    | _ => []

/-- The edits that declare the global names in use. -/
def globalEdits (a : Arena) (runesMode : Bool) (g : ScopeGraph) : List ScopeStep :=
  if runesMode then foldEdits a (declareGlobalEdits globalScope) runes g
  else foldEdits a (declareGlobalEdits g.topScope) legacyGlobals g

/-- The edits that declare globals and bind stores. -/
def nameEdits (a : Arena) (runesMode : Bool) (g : ScopeGraph) : List ScopeStep :=
  let globals := globalEdits a runesMode g
  globals ++ foldEdits a resolveStoreEdits (run a globals g).storeCandidates (run a globals g)

/-- The edits that take reactive assignments for declarations. -/
def reactiveEdits (a : Arena) (program : NodeId) (runesMode : Bool) (top : ScopeId)
    (g : ScopeGraph) : List ScopeStep :=
  if runesMode then [] else foldEdits a (declareTargetEdits top) (reactiveTargets a program) g

/-- The edits that add uses from outside. -/
def outsideEdits (a : Arena) (program : NodeId) (runesMode : Bool) (top : ScopeId)
    (g : ScopeGraph) : List ScopeStep :=
  let writes := foldEdits a (markWritableEdits a) (writableTargets a program top runesMode g) g
  writes ++ foldEdits a (markSnippetEdits a) (componentChildren a program) (run a writes g)

/-- All the edits of the dialect. -/
def edits (a : Arena) (program : NodeId) (runesMode : Bool) (g : ScopeGraph) : List ScopeStep :=
  let names := nameEdits a runesMode g
  let reactive := reactiveEdits a program runesMode g.topScope (run a names g)
  names ++ reactive ++ outsideEdits a program runesMode g.topScope (run a (names ++ reactive) g)

theorem run_globalEdits : run a (globalEdits a runesMode g) g =
    if runesMode then runes.foldl (declareGlobal globalScope) g
    else legacyGlobals.foldl (declareGlobal g.topScope) g := by
  unfold globalEdits
  split <;> exact run_foldEdits _ fun g name => run_declareGlobalEdits

theorem run_nameEdits :
    run a (nameEdits a runesMode g) g = (run a (globalEdits a runesMode g) g).resolveStores.2 := by
  unfold nameEdits ScopeGraph.resolveStores
  rw [run_append, run_foldEdits _ fun g name => run_resolveStoreEdits name]
  exact (foldl_collect (fun (g : ScopeGraph) name =>
    ((g.resolveStore name).1.toList, (g.resolveStore name).2)) ..).symm

theorem run_reactiveEdits :
    run a (reactiveEdits a program runesMode top g) g =
      (if runesMode then ([], g) else declareReactiveStatements a program top g).2 := by
  unfold reactiveEdits
  cases runesMode with
  | true => rfl
  | false =>
    simp only [Bool.false_eq_true, if_false]
    rw [run_foldEdits _ fun g i => run_declareTargetEdits top g i]
    exact (foldl_collect (declareTarget a top) ..).symm

theorem run_outsideEdits :
    run a (outsideEdits a program runesMode top g) g =
      markSnippets a program (markExternallyWritable a program top runesMode g).2 := by
  unfold outsideEdits
  rw [run_append, run_foldEdits _ run_markSnippetEdits,
    run_foldEdits _ run_markWritableEdits]
  rw [← foldl_collect (markWritable a)]
  rfl

/-- The edits do what the dialect does. -/
theorem run_edits (a : Arena) (program : NodeId) (runesMode : Bool) (g : ScopeGraph) :
    run a (edits a program runesMode g) g = (apply a program runesMode g).2 := by
  unfold edits
  rw [run_append, run_append, run_outsideEdits, run_reactiveEdits, run_nameEdits, run_globalEdits]
  rfl

theorem nameEdits_sound (h : g.Sound) (runesMode : Bool) :
    SoundRun g a (nameEdits a runesMode g) g := by
  have htop := liveScope_topScope h.wellFormed.tree h.global
  have hglobals : SoundRun g a (globalEdits a runesMode g) g := by
    unfold globalEdits
    split
    · exact .foldEdits (fun g' name _ hg' => declareGlobal_sound hg' h.global name) ⟨h, rfl⟩
    · exact .foldEdits (fun g' name _ hg' => declareGlobal_sound hg' htop name) ⟨h, rfl⟩
  exact hglobals.append (.foldEdits (fun g' name _ hg' => hg'.resolveStore name) hglobals.result)

theorem reactiveEdits_sound (program : NodeId) (h : SoundOver g g') (htop : g.LiveScope top)
    (runesMode : Bool) : SoundRun g a (reactiveEdits a program runesMode top g') g' := by
  unfold reactiveEdits
  split
  · exact .nil h
  · exact .foldEdits (fun g' i _ hg' => declareTarget_sound hg' htop i) h

theorem outsideEdits_sound (program : NodeId) (h : SoundOver g g') (htop : g.LiveScope top)
    (runesMode : Bool) : SoundRun g a (outsideEdits a program runesMode top g') g' := by
  have hwrites :
      SoundRun g a (foldEdits a (markWritableEdits a) (writableTargets a program top runesMode g') g') g' := by
    refine .foldEdits (fun g' target htarget hg' => markWritable_sound hg' ?_) h
    rcases mem_append.mp htarget with hprop | hbound
    · obtain ⟨i, -, rfl⟩ := mem_map.mp hprop
      exact htop
    · obtain ⟨id, -, hbound⟩ := mem_filterMap.mp hbound
      rw [← liveScope_congr h.tree]
      exact boundTarget_live h.sound hbound
  exact hwrites.append
    (.foldEdits (fun g' child _ hg' => markSnippet_sound hg' child) hwrites.result)

/-- On a sound graph the dialect makes only admissible edits, and keeps it sound. -/
theorem edits_sound (h : g.Sound) (a : Arena) (program : NodeId) (runesMode : Bool) :
    SoundRun g a (edits a program runesMode g) g := by
  have htop := liveScope_topScope h.wellFormed.tree h.global
  have hnames : SoundRun g a (nameEdits a runesMode g) g := nameEdits_sound h runesMode
  have hreactive := hnames.append (reactiveEdits_sound program hnames.result htop runesMode)
  exact hreactive.append (outsideEdits_sound program hreactive.result htop runesMode)

end Dialect

open ScopeStep

/-- Restoring and the dialect make only admissible edits: from a sound graph all links agree in the
end. -/
theorem restore_apply_wellFormed {coords : Coordinates} {v : VirtualScript} {h : Arena}
    {scopes : ScopeGraph}
    {program : NodeId} {tokens : List Token} {comments : List Comment} {roots : List NodeId}
    {r : Restored}
    (hscopes : scopes.Sound) (hok : restore coords v h scopes program tokens comments roots = .ok r)
    (runesMode : Bool) :
    (∃ us : List Undoing, (us.map Undoing.task).Perm v.tasks ∧ (∀ u ∈ us, u.Matched) ∧
      Undoing.AdmissibleAll us scopes ∧ r.scopes = us.foldl Undoing.reconcile scopes) ∧
    (run r.arena (edits r.arena program runesMode r.scopes) r.scopes =
        (apply r.arena program runesMode r.scopes).2 ∧
      AdmissibleRun r.arena (edits r.arena program runesMode r.scopes) r.scopes) ∧
    (apply r.arena program runesMode r.scopes).2.WellFormed fun _ => True := by
  obtain ⟨us, htasks, hmatched, hreconciled, -, -⟩ := restore_traced hok
  obtain ⟨hadm, hsound⟩ := Undoing.sound_all hscopes us
  rw [← hreconciled] at hsound
  have hedits := edits_sound hsound r.arena program runesMode
  refine ⟨⟨us, htasks, hmatched, hadm, hreconciled⟩, ⟨run_edits .., hedits.admissible⟩, ?_⟩
  rw [← run_edits]
  exact hedits.result.sound.wellFormed

theorem Sample.conditional_sound : conditional.parsed.2.scopes.Sound where
  wellFormed := .of_run (by decide +kernel) (by decide +kernel)
  filed := .of_entries (by unfold NodeIndex.Keyed; decide +kernel) (by decide +kernel)
  global := by decide +kernel
  root := by decide +kernel

theorem restore_apply_wellFormed_conditional : ∃ r, conditional.restored = .ok r ∧
    (apply r.arena conditional.parsed.2.program true r.scopes).2.WellFormed fun _ => True := by
  obtain ⟨r, hr⟩ := restored_ok conditional_restored
  exact ⟨r, hr, (restore_apply_wellFormed conditional_sound hr true).2.2⟩

/-- A snippet in a component. The node of the snippet leads to a scope that is gone. -/
def Sample.stray : Sample where
  source := "<C>\x7b#snippet s()\x7d\x7b/snippet\x7d</C>".toList
  document := ⟨[], [.element "C" .component ⟨0, 31⟩ none [] [.snippetBlock ⟨3, 27⟩ ⟨13, 14⟩ [] []]]⟩
  recording :=
    { nodes := [(.identifier "s", ⟨9, 10⟩), (.blockStatement [], ⟨13, 16⟩),
        (.function .declaration (some 0) [] 1 false false, ⟨0, 16⟩), (.emptyStatement, ⟨18, 19⟩),
        (.program .module [2, 3], ⟨0, 19⟩)]
      program := 4
      tokens := []
      comments := []
      scopes :=
      [.addScope .global 4 none, .addScope .module 4 (some 0), .addScope .block 1 (some 1),
        .addScope .function 2 (some 2), .declare 1 "s" 0 .functionName, .removeScope 2, .registerNode 2 3] }

/-- A reactive assignment under a global scope that is gone. -/
def Sample.rootless : Sample where
  source := "$: x = y".toList
  document := ⟨[⟨⟨0, 8⟩, false, none⟩], []⟩
  recording :=
    { nodes := [(.identifier "$", ⟨0, 1⟩), (.identifier "x", ⟨3, 4⟩), (.identifier "y", ⟨7, 8⟩),
        (.operatorExpression .assignment "=" 1 2, ⟨3, 8⟩), (.expressionStatement 3, ⟨3, 8⟩),
        (.labeledStatement 0 4, ⟨0, 8⟩), (.emptyStatement, ⟨9, 10⟩), (.program .module [5, 6], ⟨0, 13⟩)]
      program := 7
      tokens := []
      comments := []
      scopes := [.addScope .global 7 none, .addScope .global 7 none,
        .addReference 1 1 "x" .write false, .resolve 0, .removeScope 0] }

/-- The graph of a sample after restoring and the dialect. -/
def Sample.applied (s : Sample) (r : Restored) : ScopeGraph :=
  (apply r.arena s.parsed.2.program false r.scopes).2

/-- Links that agree are not enough: a lookup that leads to a removed scope, or a global scope that
is gone, leaves a live reference or a live variable in a scope that is not there. -/
theorem stray_not_wellFormed :
    (stray.parsed.2.scopes.WellFormed (fun _ => True) ∧ ∃ r, stray.restored = .ok r ∧
      ¬ (stray.applied r).WellFormed fun _ => True) ∧
    rootless.parsed.2.scopes.WellFormed (fun _ => True) ∧ ∃ r, rootless.restored = .ok r ∧
      ¬ (rootless.applied r).WellFormed fun _ => True := by
  refine ⟨⟨.of_run (by decide +kernel) (by decide +kernel), ?_⟩,
    .of_run (by decide +kernel) (by decide +kernel), ?_⟩
  · have hgraph : (stray.restored.toOption.map fun r => (decide ((stray.applied r).LiveReference 0),
        ((stray.applied r).referenceAt 0).source, decide ((stray.applied r).LiveScope 2))) =
          some (true, 2, false) := by
      cbv
    obtain ⟨r, hr, hshown⟩ := restored_shows hgraph
    simp only [Prod.mk.injEq] at hshown
    obtain ⟨hlive, hsource, hgone⟩ := hshown
    refine ⟨r, hr, fun hwf => of_decide_eq_false hgone ?_⟩
    rw [← hsource]
    exact hwf.places.source_live (of_decide_eq_true hlive)
  · have hgraph :
      (rootless.restored.toOption.map fun r => (decide ((rootless.applied r).LiveVariable 0),
        ((rootless.applied r).variableAt 0).scope, decide ((rootless.applied r).LiveScope 0))) =
          some (true, 0, false) := by
      cbv
    obtain ⟨r, hr, hshown⟩ := restored_shows hgraph
    simp only [Prod.mk.injEq] at hshown
    obtain ⟨hlive, hscope, hgone⟩ := hshown
    refine ⟨r, hr, fun hwf => of_decide_eq_false hgone ?_⟩
    rw [← hscope]
    exact hwf.declarations.scope_live (of_decide_eq_true hlive)

end Loom
