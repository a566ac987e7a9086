import CallContract.Proofs.Json.Fields
import CallContract.Proofs.Path.Above
import CallContract.Proofs.Path.Locate
import CallContract.Proofs.Registry.Schema
import CallContract.Proofs.Text.Trim
import Mathlib

/-!
# Unions

The schema of a union of two type expressions offers the schemas of both, unless the union is read
as something else (`TypeExpr.schema_union_iff`). It may be registered, and two literals of one kind
are an enumeration. And a composite spelling is told by its two ends before the union is cut at its
bar (`TypeExpr.composite?_eq_none_iff`), so the start of one member and the end of the other can be
taken for the ends of one composite (`TypeExpr.SpansComposite`) : two arrays
`Array<string>|Array<number>` are read as one, with an element type that means nothing
(`TypeExpr.not_forall_schema_union`).
-/

namespace CallContract

namespace Text

variable {sep : Char} {a b p s t : List Char}

/-- What a text starts with does not reach over a separator. -/
theorem prefix_append_sep_iff (hp : sep ∉ p) : p <+: a ++ sep :: b ↔ p <+: a := by
  constructor
  · rintro ⟨t, ht⟩
    rcases List.append_eq_append_iff.mp ht with ⟨c, ha, -⟩ | ⟨c, rfl, hrest⟩
    · exact ⟨c, ha.symm⟩
    · cases c with
      | nil => exact (List.append_nil a).symm ▸ List.prefix_rfl
      | cons d c =>
        obtain ⟨rfl, -⟩ := List.cons.inj hrest
        exact absurd (List.mem_append_right a List.mem_cons_self) hp
  · exact fun h => h.trans (List.prefix_append _ _)

theorem suffix_append_sep_iff (hp : sep ∉ p) : p <:+ a ++ sep :: b ↔ p <:+ b := by
  have hreverse : (a ++ sep :: b).reverse = b.reverse ++ sep :: a.reverse := by simp
  rw [← List.reverse_prefix, hreverse, prefix_append_sep_iff (by simpa using hp),
    List.reverse_prefix]

end Text

namespace TypeExpr

open Text
open Json (Value Fields)

/-! ## Composite spellings -/

variable {a b s : List Char}

theorem between?_eq_none_iff {start stop : List Char} (hstart : '\n' ∉ start)
    (hstop : '\n' ∉ stop) : between? start stop s = none ↔
      ¬('\n' ∉ s ∧ ∃ inside, s = start ++ (inside ++ stop)) := by
  constructor
  · rintro h ⟨hline, inside, rfl⟩
    rw [between?, afterStart?_append, Option.bind_some, beforeEnd?_append, Option.bind_some] at h
    simp only [List.mem_append, not_or] at hline
    simp [hline.2.1] at h
  · intro h
    rw [Option.eq_none_iff_forall_ne_some]
    intro t ht
    obtain ⟨inside, hinside, ht⟩ := Option.bind_eq_some_iff.mp ht
    obtain ⟨u, hu, hstopped⟩ := Option.bind_eq_some_iff.mp hinside
    have hs : s = start ++ (inside ++ stop) := by
      rw [eq_append_of_afterStart? hu, eq_append_of_beforeEnd? hstopped]
    have hline : '\n' ∉ inside := by
      intro hmem
      simp [hmem] at ht
    refine h ⟨?_, inside, hs⟩
    rw [hs]
    simp [hstart, hline, hstop]

theorem composite?_eq_none_iff : composite? s = none ↔
    ¬('\n' ∉ s ∧ ∃ e ∈ spellings, ∃ inside, s = e.2.1 ++ (inside ++ e.2.2)) := by
  have hlines : ∀ e ∈ spellings, '\n' ∉ e.2.1 ∧ '\n' ∉ e.2.2 :=
    List.forall_iff_forall_mem.mp (by decide)
  rw [composite?, List.findSome?_eq_none_iff]
  simp only [Option.map_eq_none_iff]
  constructor
  · rintro h ⟨hline, e, he, hends⟩
    exact (between?_eq_none_iff (hlines e he).1 (hlines e he).2).mp (h e he) ⟨hline, hends⟩
  · intro h e he
    rw [between?_eq_none_iff (hlines e he).1 (hlines e he).2]
    exact fun ⟨hline, hends⟩ => h ⟨hline, e, he, hends⟩

/-- Two type expressions with a bar between them have the two ends of a composite. -/
def SpansComposite (a b : List Char) : Prop :=
  '\n' ∉ a ∧ '\n' ∉ b ∧
    ("[]".toList <:+ b ∨
      (∃ start ∈ ["Array<", "Object<", "Record<"], start.toList <+: a) ∧ ">".toList <:+ b)

theorem composite?_union : composite? (a ++ '|' :: b) = none ↔ ¬SpansComposite a b := by
  have hbars : ∀ e ∈ spellings, '|' ∉ e.2.1 ∧ '|' ∉ e.2.2 :=
    List.forall_iff_forall_mem.mp (by decide)
  have hends : ∀ e ∈ spellings, (∃ inside, a ++ '|' :: b = e.2.1 ++ (inside ++ e.2.2)) ↔
      e.2.1 <+: a ∧ e.2.2 <:+ b := by
    intro e he
    obtain ⟨hstart, hstop⟩ := hbars e he
    constructor
    · rintro ⟨inside, h⟩
      have hprefix : e.2.1 <+: a ++ '|' :: b := ⟨_, h.symm⟩
      have hsuffix : e.2.2 <:+ a ++ '|' :: b := ⟨e.2.1 ++ inside, by rw [h, List.append_assoc]⟩
      exact ⟨(prefix_append_sep_iff hstart).mp hprefix, (suffix_append_sep_iff hstop).mp hsuffix⟩
    · rintro ⟨⟨c, rfl⟩, d, rfl⟩
      exact ⟨c ++ '|' :: d, by simp⟩
  have hline : '\n' ∉ a ++ '|' :: b ↔ '\n' ∉ a ∧ '\n' ∉ b := by simp
  have hspellings : (∃ e ∈ spellings, e.2.1 <+: a ∧ e.2.2 <:+ b) ↔ "[]".toList <:+ b ∨
      (∃ start ∈ ["Array<", "Object<", "Record<"], start.toList <+: a) ∧ ">".toList <:+ b := by
    constructor
    · rintro ⟨e, he, hstart, hstop⟩
      simp only [spellings, List.mem_cons, List.not_mem_nil, or_false] at he
      rcases he with rfl | rfl | rfl | rfl
      · exact Or.inl hstop
      · exact Or.inr ⟨⟨"Array<", by decide, hstart⟩, hstop⟩
      · exact Or.inr ⟨⟨"Object<", by decide, hstart⟩, hstop⟩
      · exact Or.inr ⟨⟨"Record<", by decide, hstart⟩, hstop⟩
    · rintro (hstop | ⟨⟨start, hmem, hstart⟩, hstop⟩)
      · exact ⟨(.array, [], ['[', ']']), by decide, List.nil_prefix, hstop⟩
      · simp only [List.mem_cons, List.not_mem_nil, or_false] at hmem
        rcases hmem with rfl | rfl | rfl
        · exact ⟨(.array, "Array<".toList, ['>']), by decide, hstart, hstop⟩
        · exact ⟨(.object, "Object<".toList, ['>']), by decide, hstart, hstop⟩
        · exact ⟨(.object, "Record<".toList, ['>']), by decide, hstart, hstop⟩
  rw [composite?_eq_none_iff, not_iff_not, SpansComposite, hline, and_assoc, ← hspellings]
  exact and_congr_right' (and_congr_right' (exists_congr fun e => and_congr_right (hends e)))

/-! ## The schema of a union -/

/-- A text is a literal of one kind. -/
def IsLiteral (kind : Value → Bool) (s : List Char) : Prop :=
  ∃ v, Value.read? s = some v ∧ kind v = true

/-- The schema of a value that may be of either of two types. -/
def either (x y : Fields) : Fields := [("anyOf", .array [.object x, .object y])]

theorem members_union (ha : trim a = a) (hb : trim b = b) (hbar : '|' ∉ a) (hbar' : '|' ∉ b) :
    members (a ++ '|' :: b) = [a, b] := by
  rw [members, pieces_append_sep b hbar, pieces_of_not_mem hbar', List.map_cons, List.map_singleton,
    ha, hb]

theorem literals?_union (ha : trim a = a) (hb : trim b = b) (hbar : '|' ∉ a) (hbar' : '|' ∉ b)
    (h : ∀ kind ∈ [isString, isNumber], ¬(IsLiteral kind a ∧ IsLiteral kind b)) :
    literals? (a ++ '|' :: b) = none := by
  have hcontains : (a ++ '|' :: b).contains '|' = true := by simp
  rw [literals?, if_pos hcontains, members_union ha hb hbar hbar', List.mapM_cons, List.mapM_cons,
    List.mapM_nil]
  cases hread : Value.read? a with
  | none => rfl
  | some v =>
  cases hread' : Value.read? b with
  | none => rfl
  | some w =>
    have hkind : ∀ kind ∈ [isString, isNumber], [v, w].all kind = false := by
      intro kind hmem
      rw [Bool.eq_false_iff]
      intro hall
      obtain ⟨hv, hw⟩ : kind v = true ∧ kind w = true := by simpa using hall
      exact h kind hmem ⟨⟨v, hread, hv⟩, w, hread', hw⟩
    have hstring := hkind isString (by simp)
    have hnumber := hkind isNumber (by simp)
    simp [hstring, hnumber]

/-- The names of basic types are words. -/
theorem primitive?_of_mem {c : Char} (hc : c.isAlpha = false) (h : c ∈ s) :
    primitive? (String.ofList s) = none := by
  have hne : ∀ name : String, name.toList.all Char.isAlpha = true → String.ofList s ≠ name := by
    rintro name hname rfl
    rw [String.toList_ofList, List.all_eq_true] at hname
    rw [hname c h] at hc
    cases hc
  simp only [primitive?, hne "string" (by decide), hne "String" (by decide),
    hne "number" (by decide), hne "Number" (by decide), hne "bigint" (by decide),
    hne "integer" (by decide), hne "boolean" (by decide), hne "Boolean" (by decide),
    hne "null" (by decide), hne "Object" (by decide), hne "object" (by decide),
    hne "Array" (by decide), hne "array" (by decide), or_self, if_false]

/-- The union of two type expressions. -/
def union (a b : String) : String := a ++ "|" ++ b

theorem toList_union (a b : String) : (union a b).toList = a.toList ++ '|' :: b.toList := by
  simp [union]

/-- Two type expressions that make a union : neither is one itself, they are no literals of one
kind, and the union is not registered. -/
structure Members (r : Registry) (a b : String) : Prop where
  left_trimmed : trim a.toList = a.toList
  right_trimmed : trim b.toList = b.toList
  left_bar : '|' ∉ a.toList
  right_bar : '|' ∉ b.toList
  literals : ∀ kind ∈ [isString, isNumber], ¬(IsLiteral kind a.toList ∧ IsLiteral kind b.toList)
  registered : r.contains (union a b) = false

namespace Members

variable {r : Registry} {a b : String}

theorem swap (h : Members r a b) (hr : r.contains (union b a) = false) : Members r b a where
  left_trimmed := h.right_trimmed
  right_trimmed := h.left_trimmed
  left_bar := h.right_bar
  right_bar := h.left_bar
  literals kind hkind hboth := h.literals kind hkind hboth.symm
  registered := hr

theorem unnamed (h : Members r a b) : Unnamed r (union a b).toList where
  registered := by
    rw [String.ofList_toList]
    exact h.registered
  primitive := primitive?_of_mem (c := '|') rfl (by simp [toList_union])

theorem schema_eq (h : Members r a b) : schema r a = schemaOf r a.toList ∧
    schema r b = schemaOf r b.toList ∧ schema r (union a b) = schemaOf r (union a b).toList := by
  have htrim : trim (union a b).toList = (union a b).toList := by
    rw [toList_union]
    exact trim_append_cons rfl h.left_trimmed h.right_trimmed
  rw [schema, schema, schema, h.left_trimmed, h.right_trimmed, htrim]
  exact ⟨rfl, rfl, rfl⟩

theorem schema_union (h : Members r a b) (hends : ¬SpansComposite a.toList b.toList) :
    schema r (union a b) = either (schema r a) (schema r b) := by
  obtain ⟨ha, hb, hunion⟩ := h.schema_eq
  have hc : composite? (union a b).toList = none := by
    rw [toList_union]
    exact composite?_union.mpr hends
  have hl : literals? (union a b).toList = none := by
    rw [toList_union]
    exact literals?_union h.left_trimmed h.right_trimmed h.left_bar h.right_bar h.literals
  have hmembers : members (union a b).toList = [a.toList, b.toList] := by
    rw [toList_union]
    exact members_union h.left_trimmed h.right_trimmed h.left_bar h.right_bar
  rw [hunion, h.unnamed.schemaOf_union hc hl (by simp [toList_union]), hmembers, ha, hb]
  rfl

end Members

/-- A composite states its type, which a union does not. -/
theorem schemaOf_ne_either {r : Registry} {shape : Shape} {e : List Char} (h : Unnamed r s)
    (hc : composite? s = some (shape, e)) (x y : Fields) : schemaOf r s ≠ either x y := by
  intro heq
  have htype : (schemaOf r s).find? "type" = some (.string (shapeName shape)) := by
    have hkeyword : "type" ≠ elementKeyword shape := by cases shape <;> decide
    rw [h.schemaOf_composite hc, Json.Fields.find?_insert_of_ne _ hkeyword]
    rfl
  rw [heq] at htype
  cases htype

/-- The schema of a union of two type expressions offers the schemas of both, in their order,
exactly if the union does not have the two ends of one composite. -/
theorem schema_union_iff {r : Registry} {a b : String} (h : Members r a b) :
    (schema r (union a b) = either (schema r a) (schema r b) ↔
      ¬SpansComposite a.toList b.toList) ∧
    (r.contains (union b a) = false →
      (schema r (union b a) = either (schema r b) (schema r a) ↔
        ¬SpansComposite b.toList a.toList)) := by
  have hiff : ∀ {a b : String}, Members r a b →
      (schema r (union a b) = either (schema r a) (schema r b) ↔
        ¬SpansComposite a.toList b.toList) := by
    intro a b h
    refine ⟨fun heq hends => ?_, h.schema_union⟩
    have hcomposite : composite? (union a b).toList ≠ none := by
      rw [toList_union]
      exact fun hc => composite?_union.mp hc hends
    obtain ⟨⟨shape, e⟩, hc⟩ := Option.ne_none_iff_exists'.mp hcomposite
    rw [h.schema_eq.2.2] at heq
    exact schemaOf_ne_either h.unnamed hc _ _ heq
  exact ⟨hiff h, fun hr => hiff (h.swap hr)⟩

/-- A registry with one type. -/
def colorRegistry : Registry := Registry.empty.register { name := "ColorHex", base := "string" }

theorem schema_union_iff_color :
    Members colorRegistry "number[]" "ColorHex" ∧
    schema colorRegistry (union "number[]" "ColorHex") =
      either (schema colorRegistry "number[]") (schema colorRegistry "ColorHex") ∧
    schema colorRegistry (union "ColorHex" "number[]") ≠
      either (schema colorRegistry "ColorHex") (schema colorRegistry "number[]") := by
  have hmembers : Members colorRegistry "number[]" "ColorHex" :=
    { left_trimmed := by cbv
      right_trimmed := by cbv
      left_bar := by decide
      right_bar := by decide
      literals := fun kind _ hboth => by
        obtain ⟨v, hread, -⟩ := hboth.2
        have hnone : Value.read? "ColorHex".toList = none := by cbv
        rw [hnone] at hread
        cases hread
      registered := by cbv }
  obtain ⟨hiff, hswapped⟩ := schema_union_iff hmembers
  have hends : ¬SpansComposite "number[]".toList "ColorHex".toList := by
    rintro ⟨-, -, hends⟩
    revert hends
    decide
  have hends' : SpansComposite "ColorHex".toList "number[]".toList :=
    ⟨by decide, by decide, Or.inl (by decide)⟩
  exact ⟨hmembers, hiff.mpr hends, fun heq => (hswapped (by cbv)).mp heq hends'⟩

/-- Two arrays are read as one array with an element type that means nothing. -/
theorem not_forall_schema_union : ¬∀ (r : Registry) (a b : String), Members r a b →
    schema r (union a b) = either (schema r a) (schema r b) := by
  intro h
  have hmembers : Members .empty "Array<string>" "Array<number>" :=
    { left_trimmed := by cbv
      right_trimmed := by cbv
      left_bar := by decide
      right_bar := by decide
      literals := fun kind _ hboth => by
        obtain ⟨v, hread, -⟩ := hboth.1
        have hnone : Value.read? "Array<string>".toList = none := by cbv
        rw [hnone] at hread
        cases hread
      registered := by cbv }
  have hread : composite? (union "Array<string>" "Array<number>").toList =
      some (.array, "string>|Array<number".toList) := by cbv
  have heq := h _ _ _ hmembers
  rw [hmembers.schema_eq.2.2] at heq
  exact schemaOf_ne_either hmembers.unnamed hread _ _ heq

end TypeExpr

end CallContract
