import Loom.Json.Record
import Loom.Proofs.Json.RoundTrip

/-!
Records and tagged unions out of the values that they are written as.

An object with the fields of a record, each once, gives them back in order; a tagged union gives
back its case and its members. A plain value can be kept aside when it is not nested too deeply.
-/

open List

namespace Loom.Json

variable {x : Json} {members : List (String × Json)} {items : List Json} {limit : Nat}

/-! Nesting. -/

mutual

/-- The number of arrays and objects that are nested in a value, itself included. -/
def depth : Json → Nat
  | .array items => depthItems items + 1
  | .object members => depthMembers members + 1
  | _ => 0

def depthItems : List Json → Nat
  | [] => 0
  | x :: xs => max (depth x) (depthItems xs)

def depthMembers : List (String × Json) → Nat
  | [] => 0
  | (_, x) :: ms => max (depth x) (depthMembers ms)

end

theorem depth_le_items (h : x ∈ items) : x.depth ≤ depthItems items := by
  induction items with
  | nil => cases h
  | cons y items ih =>
    rcases mem_cons.mp h with rfl | h
    · exact le_max_left ..
    · exact (ih h).trans (le_max_right ..)

theorem depth_le_members {m : String × Json} (h : m ∈ members) :
    m.2.depth ≤ depthMembers members := by
  induction members with
  | nil => cases h
  | cons m' members ih =>
    rcases mem_cons.mp h with rfl | h
    · exact le_max_left ..
    · exact (ih h).trans (le_max_right ..)

theorem depth_lt_array (h : x ∈ items) : x.depth < (array items).depth :=
  Nat.lt_succ_of_le (depth_le_items h)

theorem depth_lt_object {k : String} (h : (k, x) ∈ members) : x.depth < (object members).depth :=
  Nat.lt_succ_of_le (depth_le_members h)

/-! Machine words. -/

theorem le_ofDigitChars (ds : List Char) (value : Nat) : value ≤ Nat.ofDigitChars 10 ds value := by
  induction ds generalizing value with
  | nil => exact le_rfl
  | cons d ds ih =>
    have := ih (10 * value + (d.toNat - '0'.toNat))
    rw [Nat.ofDigitChars, foldl_cons, ← Nat.ofDigitChars]
    omega

/-- Digits are taken to the end as long as their value is a machine word. -/
theorem takeDigits_eq {ds : List Char} {value : Nat}
    (h : Nat.ofDigitChars 10 ds value < UInt64.size) :
    takeDigits value ds = (Nat.ofDigitChars 10 ds value, []) := by
  induction ds generalizing value with
  | nil => rfl
  | cons d ds ih =>
    have hdigit : digitsValue [d] = d.toNat - '0'.toNat := by simp [digitsValue]
    have hle := le_ofDigitChars ds (10 * value + (d.toNat - '0'.toNat))
    rw [takeDigits, hdigit, if_pos (hle.trans_lt h)]
    exact ih h

theorem takeWhile_dropWhile_digits {p : Char → Bool} {ds : List Char} (hds : ∀ c ∈ ds, c.isDigit)
    (hp : ∀ c : Char, c.isDigit → p c) : ds.takeWhile p = ds ∧ ds.dropWhile p = [] :=
  ⟨takeWhile_eq_self_iff.mpr fun c hc => hp c (hds c hc),
    dropWhile_eq_nil_iff.mpr fun c hc => hp c (hds c hc)⟩

theorem spellsFinite_toDigits {n : Nat} (hn : n < Range.wordModulus) :
    spellsFinite (Nat.toDigits 10 n) := by
  have hdigits : ∀ c ∈ Nat.toDigits 10 n, c.isDigit := fun c hc =>
    Nat.isDigit_of_mem_toDigits (by decide) (by decide) hc
  have hvalue : Nat.ofDigitChars 10 (Nat.toDigits 10 n) 0 = n :=
    Nat.ofDigitChars_toDigits (by decide) (by decide)
  have hsign : (Nat.toDigits 10 n).dropWhile (· == '-') = Nat.toDigits 10 n := by
    obtain ⟨d, ds, hds⟩ := exists_cons_of_ne_nil (Nat.toDigits_ne_nil)
    have hd : d.isDigit := hdigits d (hds ▸ mem_cons_self)
    rw [hds]
    simpa using digit_ne hd rfl
  obtain ⟨hmantissa, hpower⟩ := takeWhile_dropWhile_digits hdigits
    (p := fun c => !(c == 'e' || c == 'E')) fun c hc => by
      simpa using ⟨digit_ne hc rfl, digit_ne hc rfl⟩
  obtain ⟨hwhole, hfraction⟩ := takeWhile_dropWhile_digits hdigits (p := (· != '.')) fun c hc => by
    simpa using digit_ne hc rfl
  have htake : takeDigits 0 (Nat.toDigits 10 n) = (n, []) := by
    rw [takeDigits_eq (by rw [hvalue]; exact hn), hvalue]
  have hparts : spelledParts (Nat.toDigits 10 n) = (n, 0) := by
    simp only [spelledParts, hsign, hmantissa, hpower, hwhole, hfraction, htake]
    simp [takeDigits, digitsValue]
  simp [spellsFinite, hparts]

theorem natBelow?_ofNat {n bound : Nat} (hn : n < bound) : natBelow? bound (ofNat n) = some n := by
  have hdigits : (Nat.toDigits 10 n).all Char.isDigit := by
    rw [all_eq_true]
    exact fun c hc => Nat.isDigit_of_mem_toDigits (by decide) (by decide) hc
  have hvalue : digitsValue (Nat.toDigits 10 n) = n :=
    Nat.ofDigitChars_toDigits (by decide) (by decide)
  simp [natBelow?, ofNat, hdigits, hvalue, hn]

/-! Values that are kept aside. -/

theorem bufferableItems_iff : bufferableItems limit items ↔ ∀ x ∈ items, x.bufferable limit := by
  induction items with
  | nil => simp [bufferableItems]
  | cons x items ih => simp [bufferableItems, ih]

theorem bufferableMembers_iff :
    bufferableMembers limit members ↔ ∀ m ∈ members, m.2.bufferable limit := by
  induction members with
  | nil => simp [bufferableMembers]
  | cons m members ih => simp [bufferableMembers, ih]

theorem Plain.bufferable {j : Json} (h : j.Plain) (hdepth : j.depth ≤ limit) :
    j.bufferable limit := by
  induction h generalizing limit with
  | null | bool | string => simp [Json.bufferable]
  | nat hn =>
    exact spellsFinite_toDigits hn
  | array _ ih =>
    rw [depth] at hdepth
    obtain ⟨limit, rfl⟩ : ∃ l, limit = l + 1 := ⟨limit - 1, by omega⟩
    rw [Json.bufferable, bufferableItems_iff]
    exact fun x hx => ih x hx ((depth_le_items hx).trans (by omega))
  | object _ ih =>
    rw [depth] at hdepth
    obtain ⟨limit, rfl⟩ : ∃ l, limit = l + 1 := ⟨limit - 1, by omega⟩
    rw [Json.bufferable, bufferableMembers_iff]
    exact fun m hm => ih m hm ((depth_le_members hm).trans (by omega))

/-! Fields. -/

/-- An object with each name once gives back its values. -/
theorem fields?_object (hnames : (members.map Prod.fst).Nodup) :
    fields? (members.map Prod.fst) (.object members) = some (members.map fun m => some m.2) := by
  have hsingle : ∀ m ∈ members, single? members m.1 = some (some m.2) := by
    intro m hm
    obtain ⟨before, after, rfl⟩ := append_of_mem hm
    rw [map_append, map_cons, nodup_append, nodup_cons] at hnames
    obtain ⟨-, ⟨hafter, -⟩, hbefore⟩ := hnames
    have hleft : before.filter (·.1 == m.1) = [] := by
      simp only [filter_eq_nil_iff, beq_iff_eq]
      intro m' hm'
      exact hbefore _ (mem_map_of_mem hm') _ mem_cons_self
    have hright : after.filter (·.1 == m.1) = [] := by
      simp only [filter_eq_nil_iff, beq_iff_eq]
      intro m' hm' heq
      exact hafter (heq ▸ mem_map_of_mem hm')
    simp [single?, filter_append, hleft, hright]
  rw [fields?, mapM_map]
  exact mapM_eq_map hsingle

/-- A tag in front of the members is found, and they are left. -/
theorem tagged?_object {tags : List String} {tag : String} {i : Nat}
    (htag : tags.findIdx? (· == tag) = some i)
    (hnames : "type" ∉ members.map Prod.fst) (place : Place) :
    tagged? place tags (.object (("type", .string tag) :: members)) =
      some (i, .object members) := by
  have hne : ∀ m ∈ members, m.1 ≠ "type" := fun m hm heq => hnames (heq ▸ mem_map_of_mem hm)
  have hsingle : members.filter (·.1 == "type") = [] := by
    simpa only [filter_eq_nil_iff, beq_iff_eq] using hne
  have hrest : members.filter (·.1 != "type") = members := by
    simpa only [filter_eq_self, bne_iff_ne] using hne
  simp [tagged?, single?, hsingle, hrest, tagIndex?, htag]

/-! Values that are read back. -/

/-- The value is plain, and a reader gives back what it stands for. -/
structure Returns {α : Type} (read : Json → Option α) (j : Json) (x : α) : Prop where
  plain : j.Plain
  back : read j = some x

namespace Returns

variable {α : Type} {f : α → Json} {read : Json → Option α}

theorem optional {j : Json} {a : α} (h : Returns read j a) (hnull : j ≠ .null) :
    Returns (fun j => Json.optional read (some j)) j (some a) := by
  refine ⟨h.plain, ?_⟩
  rw [Json.optional, defaulted, nullable, h.back, Option.map_some]
  exact hnull

/-- A field that may be missing, written as `null` when it is. -/
theorem ofOption {x : Option α} (h : ∀ a ∈ x, Returns read (f a) a) (hnull : ∀ a, f a ≠ .null) :
    Returns (fun j => Json.optional read (some j)) (Json.ofOption f x) x := by
  cases x with
  | none => exact ⟨.null, rfl⟩
  | some a => exact (h a rfl).optional (hnull a)

theorem ofList {xs : List α} (h : ∀ x ∈ xs, Returns read (f x) x) :
    Returns (list read) (Json.ofList f xs) xs := by
  constructor
  · refine .array fun j hj => ?_
    obtain ⟨x, hx, rfl⟩ := mem_map.mp hj
    exact (h x hx).plain
  · have hitems : (xs.map f).mapM read = some xs := by
      rw [mapM_map]
      exact (mapM_eq_map fun x hx => (h x hx).back).trans (congrArg some (map_id xs))
    simp [list, Json.ofList, array?, hitems]

variable {j : Json} {x : α}

/-- A record is read from its fields. -/
theorem record (hj : j = .object members) (hnames : (members.map Prod.fst).Nodup)
    (hplain : ∀ m ∈ members, m.2.Plain)
    (hread : j.fields? (members.map Prod.fst) = some (members.map fun m => some m.2) →
      read j = some x) :
    Returns read j x := by
  subst hj
  exact ⟨.object hplain, hread (fields?_object hnames)⟩

/-- A case of a tagged union is read from its fields, once its tag is taken off. -/
theorem tagged {tag : String} (tags : List String) (i : Nat)
    (hj : j = .object (("type", .string tag) :: members))
    (htag : tags.findIdx? (· == tag) = some i) (hnames : ("type" :: members.map Prod.fst).Nodup)
    (hplain : ∀ m ∈ members, m.2.Plain)
    (hread : ∀ k : Json, k.fields? (members.map Prod.fst) = some (members.map fun m => some m.2) →
      (∀ place, j.tagged? place tags = some (i, k)) → read j = some x) : Returns read j x := by
  subst hj
  obtain ⟨htype, hnames⟩ := nodup_cons.mp hnames
  refine ⟨.object ?_, hread _ (fields?_object hnames) (tagged?_object htag htype)⟩
  rw [forall_mem_cons]
  exact ⟨.string tag, hplain⟩

end Returns

end Loom.Json
