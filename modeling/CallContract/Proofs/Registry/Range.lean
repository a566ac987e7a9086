import CallContract.Proofs.Number.Numeral
import CallContract.Proofs.Path.Above
import CallContract.Proofs.Text.Trim
import CallContract.Registry.Range

/-!
# Bounds from ranges

A range is written as one number, or as two numbers of which each may be missing with a separator
between them (`Range.Written`). What is written is read back, with white space around it or without
(`Range.read?_of_written`). The separator shows where the first number ends : it is no digit, and as
it is no white space either, it is not trimmed where a number is missing.

The base of a type selects what the range bounds : the first measure that its values have, in the
order of `Measure.rank`. A base such as `Object[]` has two of them, and its items are counted. The
range becomes the bounds of that measure, and nothing else is bounded (`TypeDef.bounds_ofParts`).
-/

namespace CallContract

-- Powers of numbers are the built-in ones, whatever else is imported.
attribute [local instance (high)] instPowNat

open Text

namespace Text

theorem isDecimalDigit_of_isDigit {c : Char} (h : c.isDigit = true) :
    isDecimalDigit c = true := by
  have hle : c.toNat ≤ 57 := (Char.isDigit_iff_toNat.mp h).2
  have hlt : c.toNat < 0x80 := by omega
  rw [isDecimalDigit, if_pos hlt, h]

theorem startsWith_iff_prefix {p s : List Char} : startsWith p s = true ↔ p <+: s :=
  startsWith_iff.trans (exists_congr fun _ => eq_comm)

theorem endsWith_iff_suffix {p s : List Char} : endsWith p s = true ↔ p <:+ s := by
  have hreverse : endsWith p s = startsWith p.reverse s.reverse := Option.isSome_map
  rw [hreverse, startsWith_iff_prefix, List.reverse_prefix]

end Text

/-! ## Written ranges -/

namespace Range

/-- Digits of a number below 2^64. The first of them may be zeros. -/
structure IsLimit (s : List Char) (n : Nat) : Prop where
  isDigits : IsDigits s
  value : Nat.ofDigitChars 10 s 0 = n
  lt : n < 2 ^ (64 : Nat)

theorem isLimit_toDigits {n : Nat} (h : n < 2 ^ (64 : Nat)) : IsLimit (Nat.toDigits 10 n) n :=
  ⟨isDigits_toDigits n, Nat.ofDigitChars_ten_toDigits, h⟩

theorem IsLimit.limit?_eq {s : List Char} {n : Nat} (h : IsLimit s n) : limit? s = some n := by
  rw [limit?, natural?_of_isDigits h.isDigits, h.value, Option.filter_some,
    if_pos (decide_eq_true h.lt)]

/-- One end of a range : a number, or nothing if it is missing. -/
def IsEnd (s : List Char) : Option Nat → Prop
  | none => s = []
  | some n => IsLimit s n

namespace IsEnd

variable {s : List Char} {e : Option Nat}

theorem forall_isDigit (h : IsEnd s e) : ∀ c ∈ s, c.isDigit = true := by
  cases e with
  | none =>
    obtain rfl : s = [] := h
    exact fun c hc => (List.not_mem_nil hc).elim
  | some n => exact (IsLimit.isDigits h).2

theorem limit?_eq (h : IsEnd s e) : limit? s = e := by
  cases e with
  | none =>
    obtain rfl : s = [] := h
    rfl
  | some n => exact IsLimit.limit?_eq h

end IsEnd

variable {r : Range} {s t before after : List Char}

/-- The texts of a range. A separator is neither white space nor a digit of any script. -/
inductive Written : Range → List Char → Prop
  | single {s : List Char} {n : Nat} : IsLimit s n → Written ⟨some n, some n⟩ s
  | between {s t : List Char} {least greatest : Option Nat} {separator : Char} : IsEnd s least →
      isBlank separator = false → isDecimalDigit separator = false → IsEnd t greatest →
      Written ⟨least, greatest⟩ (s ++ separator :: t)

theorem Written.trimmed (h : r.Written s) : Trimmed s := by
  cases h with
  | single hs => exact trimmed_of_forall hs.isDigits.1 fun c hc =>
      isBlank_of_isDigit (hs.isDigits.2 c hc)
  | between hs hblank _ ht =>
    refine trimmed_of_forall (by simp) fun c hc => ?_
    rcases List.mem_append.mp hc with hc | hc
    · exact isBlank_of_isDigit (hs.forall_isDigit c hc)
    rcases List.mem_cons.mp hc with rfl | hc
    · exact hblank
    · exact isBlank_of_isDigit (ht.forall_isDigit c hc)

theorem span?_of_forall (h : ∀ c ∈ s, isDecimalDigit c = true) : span? s = none := by
  rw [span?, List.dropWhile_eq_nil_iff.mpr h]

theorem span?_append {separator : Char} (hs : ∀ c ∈ s, isDecimalDigit c = true)
    (hseparator : isDecimalDigit separator = false) (ht : ∀ c ∈ t, isDecimalDigit c = true) :
    span? (s ++ separator :: t) = some ⟨limit? s, limit? t⟩ := by
  have hstop : ¬isDecimalDigit separator = true := by simp [hseparator]
  have hdrop : (s ++ separator :: t).dropWhile isDecimalDigit = separator :: t := by
    rw [List.dropWhile_append_of_pos hs, List.dropWhile_cons_of_neg hstop]
  have htake : (s ++ separator :: t).takeWhile isDecimalDigit = s := by
    rw [List.takeWhile_append_of_pos hs, List.takeWhile_cons_of_neg hstop, List.append_nil]
  rw [span?, hdrop, htake]
  exact if_pos (List.all_eq_true.mpr ht)

/-- What is written is read back. -/
theorem read?_of_written (h : r.Written s) (hbefore : ∀ c ∈ before, isBlank c = true)
    (hafter : ∀ c ∈ after, isBlank c = true) :
    read? (String.ofList (before ++ s ++ after)) = some r := by
  have htrim : trim (String.ofList (before ++ s ++ after)).toList = s := by
    rw [String.toList_ofList]
    exact h.trimmed.trim_append hbefore hafter
  simp only [read?, htrim]
  cases h with
  | single hs =>
    have hdigits : ∀ c ∈ s, isDecimalDigit c = true := fun c hc =>
      isDecimalDigit_of_isDigit (hs.isDigits.2 c hc)
    rw [span?_of_forall hdigits, single?, hs.limit?_eq]
    rfl
  | between hs _ hseparator ht =>
    have hspan := span?_append (fun c hc => isDecimalDigit_of_isDigit (hs.forall_isDigit c hc))
      hseparator fun c hc => isDecimalDigit_of_isDigit (ht.forall_isDigit c hc)
    rw [hspan, hs.limit?_eq, ht.limit?_eq]
    rfl

end Range

/-! ## Measures of base types -/

/-- What the bounds of a type speak of. -/
inductive Measure
  | length
  | value
  | items
  | properties
deriving DecidableEq

namespace Measure

/-- Whether the values of a base type have a measure. -/
def IsOf (base : String) : Measure → Prop
  | length => base = "string"
  | value => base = "number"
  | items => "Array".toList <+: base.toList ∨ "[]".toList <:+ base.toList
  | properties => "Object".toList <+: base.toList ∨ "\x7b\x7d".toList <:+ base.toList

/-- The order in which the measures of a base type are tried. -/
def rank : Measure → Nat
  | length => 0
  | value => 1
  | items => 2
  | properties => 3

/-- The first measure of a base type. -/
structure SelectedBy (base : String) (m : Measure) : Prop where
  isOf : m.IsOf base
  first : ∀ k : Measure, k.rank < m.rank → ¬k.IsOf base

/-- A base type that has a measure has a first one. -/
theorem exists_selectedBy {base : String} {m : Measure} (h : m.IsOf base) :
    ∃ k : Measure, k.SelectedBy base := by
  by_cases hfirst : ∃ k : Measure, k.rank < m.rank ∧ k.IsOf base
  · obtain ⟨k, hlt, hk⟩ := hfirst
    exact exists_selectedBy hk
  · exact ⟨m, h, fun k hlt hk => hfirst ⟨k, hlt, hk⟩⟩
termination_by m.rank

end Measure

theorem isArrayBase_iff {base : String} :
    isArrayBase base.toList = true ↔ Measure.items.IsOf base := by
  rw [isArrayBase, Bool.or_eq_true, startsWith_iff_prefix, endsWith_iff_suffix]
  rfl

theorem isObjectBase_iff {base : String} :
    isObjectBase base.toList = true ↔ Measure.properties.IsOf base := by
  rw [isObjectBase, Bool.or_eq_true, startsWith_iff_prefix, endsWith_iff_suffix]
  rfl

/-! ## Bounds -/

namespace Bounds

variable {base : String} {m : Measure}

/-- The bounds of one measure. -/
def range (b : Bounds) : Measure → Range
  | .length => ⟨b.minLength, b.maxLength⟩
  | .value => ⟨b.minimum, b.maximum⟩
  | .items => ⟨b.minItems, b.maxItems⟩
  | .properties => ⟨b.minProperties, b.maxProperties⟩

/-- The bounds of one measure and nothing else. -/
def only (r : Range) : Measure → Bounds
  | .length => { minLength := r.least, maxLength := r.greatest }
  | .value => { minimum := r.least, maximum := r.greatest }
  | .items => { minItems := r.least, maxItems := r.greatest }
  | .properties => { minProperties := r.least, maxProperties := r.greatest }

theorem range_only_self (r : Range) (m : Measure) : (only r m).range m = r := by
  cases m <;> rfl

theorem range_only_of_ne (r : Range) {k : Measure} (h : k ≠ m) :
    (only r m).range k = ⟨none, none⟩ := by
  cases m <;> cases k <;> first | rfl | exact absurd rfl h

/-- A range bounds the measure that the base selects. -/
theorem ofRange_of_selectedBy (r : Range) (h : m.SelectedBy base) : ofRange base r = only r m := by
  have hlength : Measure.length.rank < m.rank → base ≠ "string" := h.first .length
  have hvalue : Measure.value.rank < m.rank → base ≠ "number" := h.first .value
  have hitems : Measure.items.rank < m.rank → ¬isArrayBase base.toList = true := fun hlt =>
    mt isArrayBase_iff.mp (h.first .items hlt)
  cases m with
  | length =>
    have hbase : base = "string" := h.isOf
    rw [ofRange, if_pos hbase, only]
  | value =>
    have hbase : base = "number" := h.isOf
    rw [ofRange, if_neg (hlength (by decide)), if_pos hbase, only]
  | items =>
    rw [ofRange, if_neg (hlength (by decide)), if_neg (hvalue (by decide)),
      if_pos (isArrayBase_iff.mpr h.isOf), only]
  | properties =>
    rw [ofRange, if_neg (hlength (by decide)), if_neg (hvalue (by decide)),
      if_neg (hitems (by decide)), if_pos (isObjectBase_iff.mpr h.isOf), only]

/-- A base that selects nothing has no bounds. -/
theorem ofRange_of_not_selectedBy (r : Range) (h : ∀ m : Measure, ¬m.SelectedBy base) :
    ofRange base r = {} := by
  have hnone : ∀ m : Measure, ¬m.IsOf base := fun m hm =>
    (Measure.exists_selectedBy hm).elim h
  have hlength : base ≠ "string" := hnone .length
  have hvalue : base ≠ "number" := hnone .value
  rw [ofRange, if_neg hlength, if_neg hvalue, if_neg (mt isArrayBase_iff.mp (hnone .items)),
    if_neg (mt isObjectBase_iff.mp (hnone .properties))]

end Bounds

/-! ## Named types -/

namespace TypeDef

/-- A written range becomes the bounds of the measure that the base selects, and no other is set. A
base that selects no measure gets no bounds. -/
theorem bounds_ofParts {r : Range} {s before after : List Char} (hs : r.Written s)
    (hbefore : ∀ c ∈ before, isBlank c = true) (hafter : ∀ c ∈ after, isBlank c = true)
    (name : String) (base : Option String) (props : List (String × PropDef))
    (description : Option String) :
    let d := ofParts name base props (some (String.ofList (before ++ s ++ after))) description
    (∀ m : Measure, m.SelectedBy (base.getD objectBase) →
      d.bounds.range m = r ∧ ∀ k ≠ m, d.bounds.range k = ⟨none, none⟩) ∧
    ((∀ m : Measure, ¬m.SelectedBy (base.getD objectBase)) → d.bounds = {}) := by
  intro d
  have hbounds : d.bounds = Bounds.ofRange (base.getD objectBase) r := by
    simp only [d, ofParts, Option.bind_some, Range.read?_of_written hs hbefore hafter,
      Option.map_some, Option.getD_some]
  rw [hbounds]
  refine ⟨fun m hm => ?_, Bounds.ofRange_of_not_selectedBy r⟩
  rw [Bounds.ofRange_of_selectedBy r hm]
  exact ⟨Bounds.range_only_self r m, fun k hk => Bounds.range_only_of_ne r hk⟩

/-- Of a list of objects the items are counted, though its base starts as an object does. The range
has a blank and a zero in front, a separator of three bytes and the greatest bound of all. -/
theorem bounds_ofParts_objectList :
    Range.Written ⟨some 9, some 18446744073709551615⟩ "09…18446744073709551615".toList ∧
    Measure.items.SelectedBy "Object[]" ∧
    let d := ofParts "Rows" (some "Object[]") [] (some " 09…18446744073709551615") none
    d.bounds.range .items = ⟨some 9, some 18446744073709551615⟩ ∧
      ∀ k ≠ Measure.items, d.bounds.range k = ⟨none, none⟩ := by
  have hleast : Range.IsEnd "09".toList (some 9) :=
    ⟨⟨by decide, List.all_eq_true.mp rfl⟩, by decide, by decide⟩
  have hdigits : Nat.toDigits 10 18446744073709551615 = "18446744073709551615".toList := by cbv
  have hgreatest : Range.IsEnd "18446744073709551615".toList (some 18446744073709551615) :=
    hdigits ▸ Range.isLimit_toDigits (by decide : 18446744073709551615 < 2 ^ (64 : Nat))
  have htext : "09…18446744073709551615".toList =
      "09".toList ++ '…' :: "18446744073709551615".toList := by decide
  have hwritten : Range.Written ⟨some 9, some 18446744073709551615⟩
      "09…18446744073709551615".toList :=
    htext ▸ .between hleast (by decide) (by decide) hgreatest
  have hselected : Measure.items.SelectedBy "Object[]" := by
    refine ⟨Or.inr (by decide), fun k hk => ?_⟩
    cases k with
    | length => exact (by decide : ¬"Object[]" = "string")
    | value => exact (by decide : ¬"Object[]" = "number")
    | items => exact absurd hk (by decide)
    | properties => exact absurd hk (by decide)
  have hbefore : ∀ c ∈ [' '], isBlank c = true := List.forall_mem_singleton.mpr rfl
  have hafter : ∀ c ∈ ([] : List Char), isBlank c = true := List.forall_mem_nil _
  have hbounds := bounds_ofParts hwritten hbefore hafter "Rows" (some "Object[]") [] none
  have hrange : String.ofList ([' '] ++ "09…18446744073709551615".toList ++ []) =
      " 09…18446744073709551615" := by decide
  rw [hrange] at hbounds
  exact ⟨hwritten, hselected, hbounds.1 .items hselected⟩

end TypeDef

end CallContract
