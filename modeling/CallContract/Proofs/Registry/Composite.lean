import CallContract.Proofs.Registry.Union
import Mathlib

/-!
# Nested composite types

A type expression that is built of a name by `T[]`, `Array<T>`, `Object<T>` and `Record<T>` is a
tree (`NestedType`), and its schema follows the tree (`NestedType.schema`). The program has no
tree : it tries the spellings one after another and takes the first that has both ends of the text.
None that it tries too early has both (`TypeExpr.composite?_spelled`), so what it takes for the
element is the text of the element, whatever brackets there are in it. By induction on the tree the
schema of the text is that of the tree (`NestedType.schema_text`).
-/

namespace CallContract

open Json (Value Fields)
open TypeExpr

/-! ## Spellings -/

/-- A spelling of composite types. -/
inductive Spelling where
  | brackets
  | array
  | object
  | record

namespace Spelling

/-- What stands in front of the element type. -/
def start : Spelling → String
  | brackets => ""
  | array => "Array<"
  | object => "Object<"
  | record => "Record<"

/-- What stands behind the element type. -/
def stop : Spelling → String
  | brackets => "[]"
  | array | object | record => ">"

/-- What a composite with the spelling is. -/
def shape : Spelling → Shape
  | brackets | array => .array
  | object | record => .object

/-- The schema of a composite whose elements have a schema. -/
def schema (element : Fields) : Spelling → Fields
  | brackets | array => [("items", .object element), ("type", .string "array")]
  | object | record => [("additionalProperties", .object element), ("type", .string "object")]

theorem schema_eq (element : Fields) (k : Spelling) : k.schema element =
    Fields.insert (typeOnly (shapeName k.shape)) (elementKeyword k.shape) (.object element) := by
  cases k <;> rfl

theorem isBlank_eq_false (k : Spelling) : (∀ c ∈ k.start.toList, Text.isBlank c = false) ∧
    ∀ c ∈ k.stop.toList, Text.isBlank c = false := by
  have hall : (k.start.toList.all (!Text.isBlank ·) && k.stop.toList.all (!Text.isBlank ·)) =
      true := by cases k <;> rfl
  simpa using hall

theorem exists_stop {e : Shape × List Char × List Char} (h : e ∈ spellings) :
    ∃ k : Spelling, e.2.2 = k.stop.toList := by
  simp only [spellings, List.mem_cons, List.not_mem_nil, or_false] at h
  rcases h with rfl | rfl | rfl | rfl
  · exact ⟨brackets, rfl⟩
  · exact ⟨array, rfl⟩
  · exact ⟨object, rfl⟩
  · exact ⟨record, rfl⟩

end Spelling

namespace TypeExpr

open Text

variable {start stop s t : List Char}

theorem between?_append (start stop : List Char) (hline : '\n' ∉ t) :
    between? start stop (start ++ (t ++ stop)) = some (trim t) := by
  rw [between?, afterStart?_append, Option.bind_some, beforeEnd?_append, Option.bind_some]
  exact if_neg (by simpa using hline)

/-- A text with another first character does not have the start. -/
theorem between?_of_head {c d : Char} (hne : c ≠ d) :
    between? (c :: start) stop (d :: s) = none := by
  rw [between?, afterStart?, if_neg hne]
  rfl

/-- A text with another last character does not have the end. -/
theorem between?_of_last {c d : Char} (hne : c ≠ d) (stop s : List Char) :
    between? [] (stop ++ [c]) (s ++ [d]) = none := by
  have hend : beforeEnd? (stop ++ [c]) (s ++ [d]) = none := by
    rw [beforeEnd?, List.reverse_concat, List.reverse_concat, afterStart?, if_neg hne]
    rfl
  rw [between?, afterStart?, Option.bind_some, hend]
  rfl

/-- The first spelling that has both ends of a text tells the composite. -/
theorem composite?_of_between? (front : List (Shape × List Char × List Char))
    {behind : List (Shape × List Char × List Char)} {e : Shape × List Char × List Char}
    (hspellings : spellings = front ++ e :: behind)
    (hfront : ∀ f ∈ front, between? f.2.1 f.2.2 s = none) (h : between? e.2.1 e.2.2 s = some t) :
    composite? s = some (e.1, t) := by
  have hnone : (front.findSome? fun e => (between? e.2.1 e.2.2 s).map fun t => (e.1, t)) = none :=
    List.findSome?_eq_none_iff.mpr fun f hf => by rw [hfront f hf, Option.map_none]
  rw [composite?, hspellings, List.findSome?_append, hnone, Option.none_or, List.findSome?_cons, h]
  rfl

/-- A composite is told by the spelling that it has : those that are tried in front of it have
another first or another last character. -/
theorem composite?_spelled (k : Spelling) (hline : '\n' ∉ t) (htrim : trim t = t) :
    composite? (k.start.toList ++ (t ++ k.stop.toList)) = some (k.shape, t) := by
  have hread := between?_append k.start.toList k.stop.toList hline
  rw [htrim] at hread
  have hbrackets : ∀ u : List Char, between? [] ['[', ']'] (u ++ (t ++ ['>'])) = none := by
    intro u
    rw [← List.append_assoc]
    exact between?_of_last (by decide) ['['] _
  cases k with
  | brackets => exact composite?_of_between? [] rfl (by simp) hread
  | array =>
    refine composite?_of_between? (spellings.take 1) rfl ?_ hread
    exact List.forall_mem_singleton.mpr (hbrackets _)
  | object =>
    refine composite?_of_between? (spellings.take 2) rfl ?_ hread
    exact List.forall_mem_cons.mpr ⟨hbrackets _, List.forall_mem_singleton.mpr
      (between?_of_head (c := 'A') (d := 'O') (by decide))⟩
  | record =>
    refine composite?_of_between? (spellings.take 3) rfl ?_ hread
    exact List.forall_mem_cons.mpr ⟨hbrackets _, List.forall_mem_cons.mpr
      ⟨between?_of_head (c := 'A') (d := 'R') (by decide), List.forall_mem_singleton.mpr
        (between?_of_head (c := 'O') (d := 'R') (by decide))⟩⟩

end TypeExpr

/-! ## Names -/

/-- The characters that composites and unions are written with, apart from letters. -/
def typeMarks : List Char := ['[', ']', '<', '>', '|']

/-- Whether a character may be in a plain name. -/
def isNamePart (c : Char) : Bool := !(Text.isBlank c || typeMarks.contains c)

/-- A name that has no white space and no mark of a composite or a union in it. -/
def IsPlainName (name : String) : Prop := ∀ c ∈ name.toList, isNamePart c = true

/-- A composite has a mark at its end. -/
theorem Spelling.exists_mark (k : Spelling) : ∃ c ∈ k.stop.toList, c ∈ typeMarks ∧
    c.isAlpha = false := by
  cases k
  · exact ⟨']', by decide, by decide, rfl⟩
  · exact ⟨'>', by decide, by decide, rfl⟩
  · exact ⟨'>', by decide, by decide, rfl⟩
  · exact ⟨'>', by decide, by decide, rfl⟩

namespace IsPlainName

variable {name : String} {c : Char}

theorem isBlank_eq_false (h : IsPlainName name) (hc : c ∈ name.toList) :
    Text.isBlank c = false := by
  have hpart := h c hc
  rw [isNamePart, Bool.not_eq_true', Bool.or_eq_false_iff] at hpart
  exact hpart.1

theorem not_mem (h : IsPlainName name) (hc : c ∈ typeMarks) : c ∉ name.toList := by
  intro hmem
  have hpart := h c hmem
  rw [isNamePart, List.contains_iff_mem.mpr hc, Bool.or_true] at hpart
  cases hpart

theorem composite?_eq_none (h : IsPlainName name) : composite? name.toList = none := by
  rw [composite?_eq_none_iff]
  rintro ⟨-, e, he, inside, hends⟩
  obtain ⟨k, hk⟩ := Spelling.exists_stop he
  obtain ⟨c, hmem, hc, -⟩ := k.exists_mark
  exact h.not_mem hc (by simp [hends, hk, hmem])

end IsPlainName

/-! ## Trees -/

/-- A type expression that is built of a name. -/
inductive NestedType where
  | name (name : String)
  | composite (spelling : Spelling) (element : NestedType)

namespace NestedType

/-- The name that a type expression is built of. -/
def base : NestedType → String
  | name n => n
  | composite _ e => e.base

/-- How a type expression is written. -/
def text : NestedType → String
  | name n => n
  | composite k e => k.start ++ e.text ++ k.stop

/-- The schema of a type expression, by its structure. -/
def schema (r : Registry) : NestedType → Fields
  | name n =>
    if r.contains n then reference n
    else match primitive? n with
      | some type => typeOnly type
      | none => []
  | composite k e => k.schema (e.schema r)

variable {r : Registry} {e : NestedType}

theorem toList_composite (k : Spelling) (e : NestedType) :
    (composite k e).text.toList = k.start.toList ++ (e.text.toList ++ k.stop.toList) := by
  simp [text]

theorem isBlank_of_mem_text : ∀ {e : NestedType}, IsPlainName e.base →
    ∀ c ∈ e.text.toList, Text.isBlank c = false
  | name n, h, c, hc => IsPlainName.isBlank_eq_false h hc
  | composite k e, h, c, hc => by
    rw [toList_composite, List.mem_append, List.mem_append] at hc
    rcases hc with hc | hc | hc
    · exact k.isBlank_eq_false.1 c hc
    · exact isBlank_of_mem_text (e := e) h c hc
    · exact k.isBlank_eq_false.2 c hc

theorem schemaOf_name {n : String} (h : IsPlainName n) :
    schemaOf r n.toList = (name n).schema r := by
  have hbar : '|' ∉ n.toList := h.not_mem (by decide)
  have hliterals : literals? n.toList = none := if_neg (by simpa using hbar)
  rw [schema]
  cases hr : r.contains n with
  | true =>
    rw [schemaOf_registered (by rwa [String.ofList_toList]), String.ofList_toList]
    rfl
  | false =>
    cases hp : primitive? n with
    | some type =>
      rw [schemaOf_primitive (by rwa [String.ofList_toList]) (by rwa [String.ofList_toList])]
      rfl
    | none =>
      have hn : Unnamed r n.toList :=
        ⟨by rwa [String.ofList_toList], by rwa [String.ofList_toList]⟩
      rw [hn.schemaOf_unknown h.composite?_eq_none hliterals hbar]
      rfl

/-- A composite is no name. -/
theorem unnamed_composite (hr : ∀ n ∈ r.names, IsPlainName n) (k : Spelling) (e : NestedType) :
    Unnamed r (composite k e).text.toList := by
  obtain ⟨c, hstop, hc, halpha⟩ := k.exists_mark
  have hmem : c ∈ (composite k e).text.toList := by simp [toList_composite, hstop]
  refine ⟨?_, primitive?_of_mem halpha hmem⟩
  rw [String.ofList_toList, Registry.contains, Option.isSome_eq_false_iff,
    Option.isNone_iff_eq_none, Option.eq_none_iff_forall_ne_some]
  exact fun d hd => (hr _ (Registry.mem_names_of_find? hd)).not_mem hc hmem

/-- The induction is on the tree : what stands between the two ends of a composite is the text of
its element. -/
theorem schemaOf_text (hr : ∀ n ∈ r.names, IsPlainName n) : ∀ {e : NestedType},
    IsPlainName e.base → schemaOf r e.text.toList = e.schema r
  | name n, h => schemaOf_name h
  | composite k e, h => by
    have hblank := isBlank_of_mem_text (e := e) h
    have hline : '\n' ∉ e.text.toList := fun hmem => nomatch hblank _ hmem
    have hread := composite?_spelled k hline (Text.trim_of_forall hblank)
    rw [← toList_composite] at hread
    rw [(unnamed_composite hr k e).schemaOf_composite hread, schemaOf_text (e := e) hr h, schema,
      Spelling.schema_eq]

/-- Where the registered names are plain, the schema of a type expression that is built of a plain
name follows its structure, however deep it is nested. -/
theorem schema_text (hr : ∀ n ∈ r.names, IsPlainName n) (he : IsPlainName e.base) :
    TypeExpr.schema r e.text = e.schema r := by
  rw [TypeExpr.schema, Text.trim_of_forall (isBlank_of_mem_text he), schemaOf_text hr he]

/-- An array of records of arrays of a registered type. -/
def colorTable : NestedType :=
  .composite .brackets (.composite .record (.composite .array (.name "ColorHex")))

theorem schema_text_colorTable : colorTable.text = "Record<Array<ColorHex>>[]" ∧
    (∀ n ∈ colorRegistry.names, IsPlainName n) ∧ IsPlainName colorTable.base ∧
    TypeExpr.schema colorRegistry colorTable.text =
      [("items", .object [("additionalProperties", .object
        [("items", .object [("$ref", .string "#/$defs/ColorHex")]), ("type", .string "array")]),
        ("type", .string "object")]), ("type", .string "array")] := by
  have hbase : IsPlainName colorTable.base := List.all_eq_true.mp rfl
  have hr : ∀ n ∈ colorRegistry.names, IsPlainName n := List.forall_mem_singleton.mpr hbase
  refine ⟨rfl, hr, hbase, ?_⟩
  rw [schema_text hr hbase]
  rfl

end NestedType

end CallContract
