import Loom.Proofs.Cursor
import Loom.Proofs.Draft.Mapping
import Loom.Proofs.Restore.Move
import Loom.TypeAware

/-!
The text of the type-aware pass: the scripts with their reactive statements written as declarations,
then the stores.

The draft copies, leaves out and inserts from left to right, and asked for offsets in order each
step does just what it names. The scripts come in the order of their starts, so an offset is behind
the cursor only in an empty script. Without the inserted text, what is left are the scripts without
what surrounds the right sides of the statements.
-/

open List

namespace Loom

open Text

/-- The part of a text from the offset `n` on that lies in none of the ranges. -/
def Text.outside (rs : List Range) : Nat → Text → Text
  | _, [] => []
  | n, c :: cs =>
    (if rs.any fun r => r.start ≤ n && n < r.stop then [] else [c]) ++
      outside rs (n + c.utf8Size) cs

/-- A virtual text without the text put into it. -/
def VirtualText.copiedText (t : VirtualText) : Text :=
  t.text.outside (t.insertions.map (·.generated)) 0

namespace Text

variable {rs rs' : List Range} {n : Nat} {cs cs' : Text}

theorem outside_append :
    outside rs n (cs ++ cs') = outside rs n cs ++ outside rs (n + byteSize cs) cs' := by
  induction cs generalizing n with
  | nil => rfl
  | cons c cs ih => rw [cons_append, outside, outside, ih, byteSize_cons, append_assoc,
    Nat.add_assoc]

/-- Only the offsets of the text matter. -/
theorem outside_congr (h : ∀ m, m < n + byteSize cs →
      (rs.any fun r => r.start ≤ m && m < r.stop) = rs'.any fun r => r.start ≤ m && m < r.stop) :
    outside rs n cs = outside rs' n cs := by
  induction cs generalizing n with
  | nil => rfl
  | cons c cs ih =>
    have hpos := c.utf8Size_pos
    rw [byteSize_cons] at h
    rw [outside, outside, h n (by omega), ih fun m hm => h m (by omega)]

theorem outside_eq_self (h : ∀ r ∈ rs, r.stop ≤ n) : outside rs n cs = cs := by
  induction cs generalizing n with
  | nil => rfl
  | cons c cs ih =>
    have hclear : (rs.any fun r => r.start ≤ n && n < r.stop) = false := by
      simpa using fun r hr _ => h r hr
    rw [outside, hclear, ih fun r hr => Nat.le_add_right_of_le (h r hr)]
    rfl

/-- Nothing is left of a text that lies in one of the ranges. -/
theorem outside_covered {r : Range} (hr : r ∈ rs) (hstart : r.start ≤ n)
    (hstop : n + byteSize cs ≤ r.stop) : outside rs n cs = [] := by
  induction cs generalizing n with
  | nil => rfl
  | cons c cs ih =>
    have hpos := c.utf8Size_pos
    rw [byteSize_cons] at hstop
    have hany : (rs.any fun r => r.start ≤ n && n < r.stop) = true :=
      any_eq_true.mpr ⟨r, hr, by simp; omega⟩
    rw [outside, hany, ih (by omega) (by omega)]
    rfl

/-- An empty range holds nothing, whether or not it is at a character. -/
theorem slice_of_le {r : Range} (hle : r.stop ≤ r.start) : slice cs r = [] := by
  rw [slice]
  cases h : slice? cs r with
  | none => rfl
  | some part =>
    obtain ⟨-, -, -, -, -, hsize⟩ := slice?_eq_some.mp h
    exact eq_nil_of_byteSize (hsize.trans (Nat.sub_eq_zero_of_le hle))

end Text

namespace TextDraft

/-- The insertions with one more cover what it covers too, and end no later. -/
theorem addInsertion_covers {is : List Insertion} {i : Insertion} {n : Nat}
    (hi : i.generated.start ≤ i.generated.stop ∧ i.generated.stop ≤ n)
    (his : ∀ j ∈ is, j.generated.start ≤ j.generated.stop ∧ j.generated.stop ≤ n) :
    (∀ m, (((addInsertion is i).map (·.generated)).any fun r => r.start ≤ m && m < r.stop) =
      ((is.map (·.generated) ++ [i.generated]).any fun r => r.start ≤ m && m < r.stop)) ∧
    ∀ j ∈ addInsertion is i, j.generated.start ≤ j.generated.stop ∧ j.generated.stop ≤ n := by
  fun_induction addInsertion is i with
  | case1 => exact ⟨fun _ => rfl, by simpa using hi⟩
  | case2 last i heq =>
    have hlast := his last (by simp)
    refine ⟨fun m => ?_, by simp; omega⟩
    rw [Bool.eq_iff_iff]
    simp
    omega
  | case3 => exact ⟨fun _ => rfl, by simpa using ⟨his _ (by simp), hi⟩⟩
  | case4 x y rest i ih =>
    rw [forall_mem_cons] at his ⊢
    obtain ⟨hany, hwithin⟩ := ih hi his.2
    refine ⟨fun m => ?_, his.1, hwithin⟩
    rw [map_cons, any_cons, hany]
    rfl

/-- The source is used up to `n`, `text` is written, and `copied` is what it holds of the source. -/
structure Wrote (source : Text) (d : TextDraft) (n : Nat) (text copied : Text) : Prop where
  source_eq : d.source = source
  cursor_eq : d.cursor = n
  text_eq : d.text = text
  copied_eq : d.finish.copiedText = copied
  within : ∀ i ∈ d.insertions, i.generated.start ≤ i.generated.stop ∧
    i.generated.stop ≤ byteSize d.text

variable {source text copied : Text} {d : TextDraft} {n : Nat}

namespace Wrote

theorem ofSource (source : Text) : Wrote source (.ofSource source) 0 [] [] :=
  ⟨rfl, rfl, rfl, rfl, by simp [TextDraft.ofSource]⟩

variable (h : Wrote source d n text copied)
include h

theorem copyUpTo (m : Nat) : Wrote source (d.copyUpTo m) (max n m) (text ++ slice source ⟨n, m⟩)
    (copied ++ slice source ⟨n, m⟩) := by
  obtain ⟨rfl, rfl, rfl, rfl, hwithin⟩ := h
  rw [TextDraft.copyUpTo]
  split
  case isTrue hle =>
    rw [slice_of_le hle, append_nil, append_nil]
    exact ⟨rfl, (Nat.max_eq_left hle).symm, rfl, rfl, hwithin⟩
  case isFalse hlt =>
    refine ⟨rfl, (Nat.max_eq_right (Nat.le_of_not_le hlt)).symm, rfl, ?_,
      fun i hi => ⟨(hwithin i hi).1, ?_⟩⟩
    · have hpast : ∀ r ∈ d.insertions.map (·.generated), r.stop ≤ 0 + byteSize d.text := by
        simpa using fun i hi => (hwithin i hi).2
      simp only [VirtualText.copiedText, finish, outside_append, outside_eq_self hpast]
    · rw [byteSize_append]
      exact Nat.le_add_right_of_le (hwithin i hi).2

theorem skipUpTo (m : Nat) : Wrote source (d.skipUpTo m) (max n m) text copied := by
  obtain ⟨rfl, rfl, rfl, rfl, hwithin⟩ := h
  rw [TextDraft.skipUpTo]
  split
  case isTrue hle => exact ⟨rfl, (Nat.max_eq_left hle).symm, rfl, rfl, hwithin⟩
  case isFalse hlt => exact ⟨rfl, (Nat.max_eq_right (Nat.le_of_not_le hlt)).symm, rfl, rfl, hwithin⟩

theorem insert (label t : String) :
    Wrote source (d.insert label t) n (text ++ t.toList) copied := by
  obtain ⟨rfl, rfl, rfl, rfl, hwithin⟩ := h
  rw [TextDraft.insert]
  split
  case isTrue hempty =>
    obtain rfl : t = "" := by simpa using hempty
    exact ⟨rfl, rfl, by simp, rfl, hwithin⟩
  case isFalse =>
    have hold : ∀ j ∈ d.insertions, j.generated.start ≤ j.generated.stop ∧
        j.generated.stop ≤ byteSize d.text + byteSize t.toList := fun j hj =>
      ⟨(hwithin j hj).1, Nat.le_add_right_of_le (hwithin j hj).2⟩
    obtain ⟨hany, hnew⟩ :=
      addInsertion_covers (i := ⟨label, ⟨_, _⟩, d.skipped.getD ⟨d.cursor, d.cursor⟩⟩)
      ⟨Nat.le_add_right (byteSize d.text) _, Nat.le_refl _⟩ hold
    refine ⟨rfl, rfl, rfl, ?_, by rwa [byteSize_append]⟩
    simp only [VirtualText.copiedText, finish, outside_congr fun m _ => hany m, outside_append]
    rw [outside_covered (n := 0 + byteSize d.text) (mem_append_right _ (mem_singleton_self _))
      (by simp) (by simp), append_nil]
    -- The old text lies before the new insertion.
    refine outside_congr fun m hm => ?_
    simp
    omega

end Wrote

end TextDraft

namespace TypeAware

/-- The source from an offset up to `stop`, with the statement of each site written as a
declaration. -/
def loweredText (source : Text) (stop : Nat) : Nat → List ReactiveSite → Text
  | start, [] => slice source ⟨start, stop⟩
  | start, s :: rest =>
    slice source ⟨start, s.statement.start⟩ ++
      ("let " ++ s.name ++ " = " ++ reactiveHelper ++ "(() => (").toList ++ slice source s.right ++
        "));".toList ++
      loweredText source stop s.statement.stop rest

/-- What is left of the source from an offset up to `stop` without what surrounds the right sides of
the sites. -/
def copiedRanges (stop : Nat) : Nat → List ReactiveSite → List Range
  | start, [] => [⟨start, stop⟩]
  | start, s :: rest => ⟨start, s.statement.start⟩ :: s.right ::
    copiedRanges stop s.statement.stop rest

/-- The right side of the statement lies in it. -/
def ReactiveSite.Ordered (s : ReactiveSite) : Prop :=
  s.statement.start ≤ s.right.start ∧ s.right.start ≤ s.right.stop ∧ s.right.stop ≤ s.statement.stop

variable {stop c : Nat} {sites : List ReactiveSite}

/-- The sites of a stretch of the source, in order. -/
def SitesIn (sites : List ReactiveSite) (n stop : Nat) : Prop :=
  (∀ s ∈ sites, s.Ordered ∧ n ≤ s.statement.start ∧ s.statement.stop ≤ stop) ∧
    sites.Pairwise fun s s' => s.statement.stop ≤ s'.statement.start

theorem SitesIn.tail {s : ReactiveSite} (h : SitesIn (s :: sites) n stop) :
    SitesIn sites s.statement.stop stop := by
  obtain ⟨hin, hsites⟩ := h
  rw [pairwise_cons] at hsites
  exact ⟨fun s' hs' => ⟨(hin s' (.tail _ hs')).1, hsites.1 s' hs', (hin s' (.tail _ hs')).2.2⟩,
    hsites.2⟩

/-- The source is used up to the offset `n`, or further where nothing is left before `stop`. -/
def Reached (stop n cursor : Nat) : Prop := cursor = n ∨ stop ≤ n ∧ n ≤ cursor

theorem Reached.slice_eq {m : Nat} (h : Reached stop n c) (hm : m ≤ stop) :
    slice source ⟨c, m⟩ = slice source ⟨n, m⟩ := by
  obtain rfl | ⟨hstop, hle⟩ := h
  · rfl
  · rw [slice_of_le (hm.trans (hstop.trans hle)), slice_of_le (hm.trans hstop)]

theorem wrote_lowerSites (h : d.Wrote source c text copied) (hc : Reached stop n c)
    (hsites : SitesIn sites n stop) :
    ((sites.foldl lowerSite d).copyUpTo stop).Wrote source (max c stop)
      (text ++ loweredText source stop n sites)
      (copied ++ (copiedRanges stop n sites).flatMap (slice source)) := by
  induction sites generalizing d n c text copied with
  | nil => simpa [loweredText, copiedRanges, hc.slice_eq (le_refl stop)] using h.copyUpTo stop
  | cons s rest ih =>
    obtain ⟨⟨hstart, hle, hend⟩, hn, hs⟩ := hsites.1 s (.head _)
    have hright := ((h.copyUpTo s.statement.start).skipUpTo s.right.start).insert "reactive"
      ("let " ++ s.name ++ " = " ++ reactiveHelper ++ "(() => (")
    have hsite := ((hright.copyUpTo s.right.stop).skipUpTo s.statement.stop).insert "reactive" "));"
    have hat : Reached stop s.right.start (max (max c s.statement.start) s.right.start) := by
      simp only [Reached] at hc ⊢
      omega
    rw [hc.slice_eq (by omega), hat.slice_eq (by omega)] at hsite
    have hrest :=
      ih hsite (n := s.statement.stop) (by simp only [Reached] at hc ⊢; omega) hsites.tail
    have hcursor :
      max (max (max (max (max c s.statement.start) s.right.start) s.right.stop) s.statement.stop)
        stop = max c stop := by
      omega
    simpa only [foldl_cons, lowerSite, loweredText, copiedRanges, flatMap_cons, append_assoc,
      hcursor] using hrest

theorem Range.mem_offsets {r : Range} {k : Nat} : k ∈ r.offsets ↔ r.start ≤ k ∧ k < r.stop := by
  rw [Range.offsets, mem_range'_1]
  omega

theorem Range.not_shared {r r' : Range} (h : r.offsets.Disjoint r'.offsets) (k : Nat) :
    ¬ ((r.start ≤ k ∧ k < r.stop) ∧ r'.start ≤ k ∧ k < r'.stop) := fun ⟨hk, hk'⟩ =>
  h (Range.mem_offsets.mpr hk) (Range.mem_offsets.mpr hk')

/-- Each byte is copied once, and they are in order. -/
theorem pairwise_copiedRanges (hsites : SitesIn sites n stop) :
    ((copiedRanges stop n sites).flatMap Range.offsets).Pairwise (· < ·) ∧
      ∀ k ∈ (copiedRanges stop n sites).flatMap Range.offsets, n ≤ k ∧ k < stop := by
  induction sites generalizing n with
  | nil =>
    rw [copiedRanges, flatMap_singleton]
    exact ⟨pairwise_lt_range' .., fun k hk => Range.mem_offsets.mp hk⟩
  | cons s rest ih =>
    obtain ⟨⟨hstart, hle, hend⟩, hn, hs⟩ := hsites.1 s (.head _)
    obtain ⟨hpair, hin⟩ := ih hsites.tail
    simp only [copiedRanges, flatMap_cons, pairwise_append, forall_mem_append, Range.mem_offsets]
    refine ⟨⟨pairwise_lt_range' .., ⟨pairwise_lt_range' .., hpair, ?_⟩, ?_⟩, ?_⟩
    all_goals grind

/-- The sites of a script. -/
def sitesOf (sites : List ReactiveSite) (b : Template.ScriptBlock) : List ReactiveSite :=
  sites.filter fun s => b.content.contains s.statement

theorem wrote_lowerScripts {scripts : List Template.ScriptBlock} (h : d.Wrote source c text copied)
    (hsorted : scripts.Pairwise fun b b' => b.content.start ≤ b'.content.start)
    (hscripts : scripts.Pairwise fun b b' => b.content.offsets.Disjoint b'.content.offsets)
    (hin : ∀ b ∈ scripts, (c ≤ b.content.start ∨ b.content.stop ≤ b.content.start) ∧
      SitesIn (sitesOf sites b) b.content.start b.content.stop) :
    ∃ n', (scripts.foldl (lowerScript sites) d).Wrote source n' (text ++ scripts.flatMap fun b =>
        loweredText source b.content.stop b.content.start (sitesOf sites b) ++ "\n;\n".toList)
      (copied ++ (scripts.flatMap fun b => copiedRanges b.content.stop b.content.start (sitesOf sites b)).flatMap
        (slice source)) := by
  induction scripts generalizing d c text copied with
  | nil => exact ⟨c, by simpa using h⟩
  | cons b rest ih =>
    rw [pairwise_cons] at hsorted hscripts
    obtain ⟨hc, hsites⟩ := hin b (.head _)
    have hscript :=
      (wrote_lowerSites (h.skipUpTo b.content.start) (by simp only [Reached]; omega) hsites).insert
      "separator" "\n;\n"
    -- A script that is not empty starts at or after the end of the scripts before it.
    have hnext : ∀ b' ∈ rest, max (max c b.content.start) b.content.stop ≤ b'.content.start ∨
        b'.content.stop ≤ b'.content.start := by
      intro b' hb'
      have hc' := (hin b' (.tail _ hb')).1
      have hstart := hsorted.1 b' hb'
      have hshared := Range.not_shared (hscripts.1 b' hb') b'.content.start
      omega
    obtain ⟨n', hrest⟩ :=
      ih hscript hsorted.2 hscripts.2 fun b' hb' => ⟨hnext b' hb', (hin b' (.tail _ hb')).2⟩
    simp only [flatMap_cons, flatMap_append, append_assoc] at hrest ⊢
    exact ⟨n', hrest⟩

theorem wrote_declareStores (stores : List String) (h : d.Wrote source n text copied) :
    (stores.foldl declareStore d).Wrote source n (text ++ stores.flatMap fun name =>
      ("\nlet $" ++ name ++ " = " ++ storeHelper ++ "(" ++ name ++ ");").toList) copied := by
  induction stores generalizing d text with
  | nil => simpa using h
  | cons name rest ih =>
    simpa only [foldl_cons, declareStore, flatMap_cons, append_assoc] using ih (h.insert "store" _)

theorem pairwise_sourceOrder (scripts : List Template.ScriptBlock) :
    (sourceOrder scripts).Pairwise fun b b' => b.content.start ≤ b'.content.start :=
  pairwise_mergeSort_key (fun b : Template.ScriptBlock => b.content.start) scripts

/-- A successful pass shows the text and the insertions of its draft. -/
theorem run_eq_ok {first : Analysis} {host : Host} {options : Options} {r : Result}
    (h : run source first host options = .ok r) :
    r.file.text = String.ofList (draft source first).text ∧
      r.insertions = (draft source first).insertions := by
  obtain ⟨parsed, -, h⟩ := bind_eq_ok h
  obtain ⟨undone, -, h⟩ := bind_eq_ok h
  cases h
  exact ⟨rfl, rfl⟩

/-- The text of the pass is the scripts in the order of the source, in which each reactive statement
is a declaration around the text of its right side, each closed by the separator, and a declaration
for each store. Without the insertions it is what is left of the scripts without what surrounds the
right sides, every byte of it once and in order. -/
theorem draft_faithful (source : Text) (first : Analysis)
    (hscripts : first.scripts.Pairwise fun b b' => b.content.offsets.Disjoint b'.content.offsets)
    (hright : ∀ s ∈ reactiveSites first, s.Ordered)
    (hsites : (reactiveSites first).Pairwise fun s s' => s.statement.stop ≤ s'.statement.start) :
    let t := draft source first
    let scripts := sourceOrder first.scripts
    let sites := sitesOf (reactiveSites first)
    let copied := scripts.flatMap fun b => copiedRanges b.content.stop b.content.start (sites b)
    (∀ host options r, run source first host options = .ok r →
      r.file.text = String.ofList t.text ∧ r.insertions = t.insertions) ∧
    scripts.Perm first.scripts ∧ scripts.Pairwise (fun b b' => b.content.start ≤ b'.content.start) ∧
    t.text = (scripts.flatMap fun b =>
        loweredText source b.content.stop b.content.start (sites b) ++ "\n;\n".toList) ++
      first.dialect.stores.flatMap (fun name =>
        ("\nlet $" ++ name ++ " = " ++ storeHelper ++ "(" ++ name ++ ");").toList) ∧
    t.copiedText = copied.flatMap (slice source) ∧
      (copied.flatMap Range.offsets).Pairwise (· < ·) := by
  intro t scripts sites copied
  have hperm : scripts.Perm first.scripts := mergeSort_perm ..
  have hsorted := pairwise_sourceOrder first.scripts
  have hdisj := (hperm.pairwise_iff fun h => List.disjoint_comm.mp h).mpr hscripts
  have hin : ∀ b, SitesIn (sites b) b.content.start b.content.stop := fun b =>
    ⟨fun s hs =>
      ⟨hright s (mem_filter.mp hs).1, by simpa [Range.contains] using (mem_filter.mp hs).2⟩,
      hsites.filter _⟩
  obtain ⟨n, h⟩ :=
    wrote_lowerScripts (.ofSource source) hsorted hdisj fun b _ => ⟨.inl (Nat.zero_le _), hin b⟩
  have hall := wrote_declareStores first.dialect.stores h
  refine ⟨fun host options r => run_eq_ok, hperm, hsorted, hall.text_eq, hall.copied_eq, ?_⟩
  rw [flatMap_assoc]
  refine pairwise_flatMap.mpr ⟨fun b _ => (pairwise_copiedRanges (hin b)).1, ?_⟩
  refine (hsorted.and hdisj).imp fun hb k hk k' hk' => ?_
  obtain ⟨hstart, hshared⟩ := hb
  have hk := (pairwise_copiedRanges (hin _)).2 k hk
  have hk' := (pairwise_copiedRanges (hin _)).2 k' hk'
  have hshared := Range.not_shared hshared k'
  omega

/-- Two reactive statements, one without a semicolon, in the last of three scripts, the second of
which is empty. -/
def reactiveAnalysis : Analysis where
  arena :=
    [(Kind.identifier "$", (⟨0, 1⟩ : Range)), (.identifier "a", ⟨2, 3⟩), (.identifier "b", ⟨4, 5⟩),
    (.operatorExpression .assignment "=" 1 2, ⟨2, 5⟩), (.expressionStatement 3, ⟨2, 6⟩),
    (.labeledStatement 0 4, ⟨0, 6⟩),
    (.identifier "$", ⟨6, 7⟩), (.identifier "c", ⟨8, 9⟩), (.identifier "d", ⟨10, 11⟩),
    (.operatorExpression .assignment "=" 7 8, ⟨8, 11⟩), (.expressionStatement 9, ⟨8, 11⟩),
    (.labeledStatement 6 10, ⟨6, 11⟩), (.program .module [5, 11], ⟨0, 13⟩)].foldl
      (fun a x => (a.alloc x.1 x.2).2) .empty
  program := 12
  tokens := []
  comments := []
  scopes := .empty
  scripts := [⟨⟨12, 13⟩, true, none⟩, ⟨⟨3, 3⟩, false, none⟩, ⟨⟨0, 11⟩, false, none⟩]
  dialect := { runes := false, stores := ["s"], reactive := ["a", "c"], externallyWritable := [] }
  config := none

theorem draft_faithful_reactive : (draft "$:a=b;$:c=d|e".toList reactiveAnalysis).text =
    ("let a = __reactive(() => (b));let c = __reactive(() => (d));\n;\n\n;\ne\n;\n" ++
        "\nlet $s = __store_value(s);").toList ∧
    (draft "$:a=b;$:c=d|e".toList reactiveAnalysis).copiedText = "bde".toList := by
  have hsites : reactiveSites reactiveAnalysis =
      [⟨"a", ⟨0, 6⟩, ⟨0, 1⟩, ⟨2, 6⟩, ⟨2, 5⟩, ⟨2, 3⟩, ⟨4, 5⟩⟩,
      ⟨"c", ⟨6, 11⟩, ⟨6, 7⟩, ⟨8, 11⟩, ⟨8, 11⟩, ⟨8, 9⟩, ⟨10, 11⟩⟩] := by
    decide +kernel
  have hscripts : reactiveAnalysis.scripts.Pairwise fun b b' =>
      b.content.offsets.Disjoint b'.content.offsets := by
    simp only [reactiveAnalysis, List.Disjoint, Range.mem_offsets, pairwise_cons, forall_mem_cons]
    grind
  obtain ⟨-, -, -, htext, hcopied, -⟩ :=
    draft_faithful "$:a=b;$:c=d|e".toList reactiveAnalysis hscripts
    (by simp [hsites, ReactiveSite.Ordered]) (by rw [hsites]; decide)
  have horder : sourceOrder reactiveAnalysis.scripts =
      [⟨⟨0, 11⟩, false, none⟩, ⟨⟨3, 3⟩, false, none⟩, ⟨⟨12, 13⟩, true, none⟩] := by
    simp [sourceOrder, reactiveAnalysis, mergeSort, MergeSort.Internal.splitInTwo]
  rw [hsites, horder] at htext hcopied
  exact ⟨htext.trans (by decide +kernel), hcopied.trans (by decide +kernel)⟩

end TypeAware

end Loom
