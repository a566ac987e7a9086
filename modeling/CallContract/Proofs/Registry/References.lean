import CallContract.Proofs.Json.Fields
import CallContract.Proofs.Json.Pointer
import CallContract.Proofs.Json.RoundTrip
import CallContract.Proofs.Registry.Schema
import CallContract.Proofs.Table.Restriction
import Mathlib

/-!
# References of the schema document

The schema document of a registry refers to a registered type where a type expression names it : the
expression is the name, or it is a composite or a union, and its element or a member names the type
(`TypeExpr.Names`, `Registry.Names`). What else is written into a schema, its description, a
default, its bounds, is no schema and has no references (`Json.Value.refAt_insert`,
`Json.Value.refAt_extend`). So the references of a schema follow the recursion that writes it
(`TypeExpr.refAt_schemaOf`), and those of the document are the names in the registry
(`Registry.refAt_schema`).

A name is written into a reference as it is. The reference is a pointer to the entry of the type
only if no character of the name has to be escaped there (`Registry.refAt_schema_resolves`), which a
slash has to be (`Registry.not_forall_refAt_schema_resolves`).
-/

namespace CallContract

open Json (Value Fields)

/-! ## References of a schema -/

namespace Json

/-- The keywords of a schema whose values are no schemas. -/
def plainKeywords : List String :=
  ["$schema", "type", "enum", "required", "description", "default", "minLength", "maxLength",
    "minimum", "maximum", "minItems", "maxItems", "minProperties", "maxProperties"]

/-- The keywords with schemas by name. -/
def namedKeywords : List String := ["$defs", "properties"]

/-- A schema has a reference at the end of a way. Every keyword leads to a schema, to schemas in a
row or by name, unless its values are known to be none. -/
inductive Value.RefAt : Value → List String → String → Prop where
  | ref {fs : Fields} {ref : String} (h : fs.find? "$ref" = some (.string ref)) :
    RefAt (.object fs) [] ref
  | keyword {fs : Fields} {k ref : String} {v : Value} {way : List String}
    (hk : k ∉ plainKeywords ++ namedKeywords) (hv : fs.find? k = some v) (h : RefAt v way ref) :
    RefAt (.object fs) (k :: way) ref
  | named {fs gs : Fields} {k name ref : String} {v : Value} {way : List String}
    (hk : k ∈ namedKeywords) (hgs : fs.find? k = some (.object gs))
    (hv : gs.find? name = some v) (h : RefAt v way ref) :
    RefAt (.object fs) (k :: name :: way) ref
  | item {vs : List Value} {i : Nat} {v : Value} {way : List String} {ref : String}
    (hv : vs[i]? = some v) (h : RefAt v way ref) : RefAt (.array vs) (toString i :: way) ref

namespace Value

variable {fs gs : Fields} {vs : List Value} {k ref : String} {v : Value} {way : List String}

/-- The way to a reference, as a pointer, leads to a schema with the reference. -/
theorem RefAt.at? (h : RefAt v way ref) :
    ∃ fs, v.at? way = some (.object fs) ∧ Fields.find? fs "$ref" = some (.string ref) := by
  induction h with
  | ref hr => exact ⟨_, rfl, hr⟩
  | keyword _ hv _ ih =>
    obtain ⟨fs, hfs, hr⟩ := ih
    exact ⟨fs, by rw [Value.at?, hv, Option.bind_some, hfs], hr⟩
  | named _ hgs hv _ ih =>
    obtain ⟨fs, hfs, hr⟩ := ih
    exact ⟨fs, by rw [Value.at?, hgs, Option.bind_some, Value.at?, hv, Option.bind_some, hfs], hr⟩
  | item hv _ ih =>
    obtain ⟨fs, hfs, hr⟩ := ih
    refine ⟨fs, ?_, hr⟩
    rw [Value.at?, Pointer.index?_toString, Option.bind_some, hv, Option.bind_some, hfs]

theorem not_refAt_string {s : String} : ¬RefAt (.string s) way ref := by
  rintro ⟨⟩

/-- What stands under plain keywords makes no difference. -/
theorem RefAt.congr (h : ∀ k ∉ plainKeywords, Fields.find? fs k = Fields.find? gs k) :
    RefAt (.object fs) way ref ↔ RefAt (.object gs) way ref := by
  have hnamed : ∀ k ∈ namedKeywords, k ∉ plainKeywords :=
    List.forall_iff_forall_mem.mp (by decide)
  have hmono : ∀ {fs gs : Fields}, (∀ k ∉ plainKeywords, fs.find? k = gs.find? k) →
      RefAt (.object fs) way ref → RefAt (.object gs) way ref := by
    intro fs gs hsame hrefs
    cases hrefs with
    | ref hr => exact .ref ((hsame "$ref" (by decide)).symm.trans hr)
    | keyword hk hv hrefs =>
      have hplain := fun hmem => hk (List.mem_append_left _ hmem)
      exact .keyword hk ((hsame _ hplain).symm.trans hv) hrefs
    | named hk hgs hv hrefs => exact .named hk ((hsame _ (hnamed _ hk)).symm.trans hgs) hv hrefs
  exact ⟨hmono h, hmono fun k hk => (h k hk).symm⟩

theorem refAt_insert (hk : k ∈ plainKeywords) :
    RefAt (.object (Fields.insert fs k v)) way ref ↔ RefAt (.object fs) way ref :=
  RefAt.congr fun l hl => Fields.find?_insert_of_ne v (fun heq => hl (by rwa [heq])) fs

theorem refAt_extend {l : List (String × Value)} (h : ∀ e ∈ l, e.1 ∈ plainKeywords) :
    RefAt (.object (Fields.extend fs l)) way ref ↔ RefAt (.object fs) way ref :=
  RefAt.congr fun _ hk =>
    Fields.find?_extend_of_not_mem fun e he heq => hk (heq ▸ h e he)

theorem not_refAt_nil : ¬RefAt (.object []) way ref := by
  intro h
  cases h with
  | ref hr => cases hr
  | keyword _ hv _ => cases hv
  | named _ hgs _ _ => cases hgs

theorem not_refAt_plain (hk : k ∈ plainKeywords) : ¬RefAt (.object [(k, v)]) way ref := by
  have hinsert : RefAt (.object (Fields.insert [] k v)) way ref ↔ RefAt (.object []) way ref :=
    refAt_insert hk
  exact fun h => not_refAt_nil (hinsert.mp h)

theorem eq_of_find?_singleton {l : String} {w : Value}
    (h : Fields.find? [(k, v)] l = some w) : k = l ∧ v = w := by
  rw [Fields.find?] at h
  split at h
  · exact ⟨‹_›, Option.some.inj h⟩
  · cases h

theorem find?_singleton (k : String) (v : Value) : Fields.find? [(k, v)] k = some v :=
  if_pos rfl

theorem refAt_ref {s : String} :
    RefAt (.object [("$ref", .string s)]) way ref ↔ way = [] ∧ ref = s := by
  constructor
  · intro h
    cases h with
    | ref hr => exact ⟨rfl, (Value.string.inj (eq_of_find?_singleton hr).2).symm⟩
    | keyword _ hv h =>
      obtain ⟨-, rfl⟩ := eq_of_find?_singleton hv
      exact absurd h not_refAt_string
    | named _ hgs _ _ => exact Value.noConfusion (eq_of_find?_singleton hgs).2
  · rintro ⟨rfl, rfl⟩
    exact .ref (find?_singleton _ _)

/-- A keyword with a schema or with schemas in a row. -/
theorem refAt_keyword (hk : k ∉ "$ref" :: (plainKeywords ++ namedKeywords)) :
    RefAt (.object [(k, v)]) way ref ↔ ∃ rest, way = k :: rest ∧ RefAt v rest ref := by
  rw [List.mem_cons, not_or] at hk
  constructor
  · intro h
    cases h with
    | ref hr => exact absurd (eq_of_find?_singleton hr).1 hk.1
    | keyword _ hv h =>
      obtain ⟨rfl, rfl⟩ := eq_of_find?_singleton hv
      exact ⟨_, rfl, h⟩
    | named hnamed hgs _ _ =>
      obtain ⟨rfl, -⟩ := eq_of_find?_singleton hgs
      exact absurd (List.mem_append_right _ hnamed) hk.2
  · rintro ⟨rest, rfl, h⟩
    exact .keyword hk.2 (find?_singleton _ _) h

/-- A keyword with schemas by name. -/
theorem refAt_named (hk : k ∈ namedKeywords) :
    RefAt (.object [(k, .object gs)]) way ref ↔
      ∃ name v rest, way = k :: name :: rest ∧ gs.find? name = some v ∧ RefAt v rest ref := by
  constructor
  · intro h
    cases h with
    | ref hr => exact Value.noConfusion (eq_of_find?_singleton hr).2
    | keyword hplain hv _ =>
      obtain ⟨rfl, -⟩ := eq_of_find?_singleton hv
      exact absurd (List.mem_append_right _ hk) hplain
    | named _ hgs hv h =>
      obtain ⟨rfl, heq⟩ := eq_of_find?_singleton hgs
      obtain rfl := Value.object.inj heq
      exact ⟨_, _, _, rfl, hv, h⟩
  · rintro ⟨name, v, rest, rfl, hv, h⟩
    exact .named hk (find?_singleton _ _) hv h

theorem refAt_array : RefAt (.array vs) way ref ↔
    ∃ (i : Nat) (v : Value) (rest : List String), way = toString i :: rest ∧ vs[i]? = some v ∧
      RefAt v rest ref := by
  constructor
  · intro h
    cases h with
    | item hv h => exact ⟨_, _, _, rfl, hv, h⟩
  · rintro ⟨i, v, rest, rfl, hv, h⟩
    exact .item hv h

end Value

/-- Of the pairs with a key the last one counts. -/
theorem Fields.find?_ofList_eq (l : List (String × Value)) (k : String) :
    find? (ofList l) k = Table.find? l.reverse k := by
  induction l using List.reverseRecOn with
  | nil => rfl
  | append_singleton l e ih =>
    have hinsert : ofList (l ++ [e]) = insert (ofList l) e.1 e.2 := by
      rw [ofList, List.foldl_append]
      rfl
    rw [hinsert, List.reverse_append, List.reverse_singleton, List.singleton_append]
    by_cases hk : e.1 = k
    · rw [← hk, find?_insert_self]
      exact (if_pos rfl).symm
    · rw [find?_insert_of_ne e.2 (Ne.symm hk), ih]
      exact (if_neg hk).symm

end Json

/-! ## Names in a type expression -/

namespace TypeExpr

variable {r : Registry} {s : List Char} {way : List String} {ref : String}

/-- A type expression without blanks around it names a registered type : it is the name, or it is a
composite or a union, and the element or a member names the type. The way leads there in the
schema of the expression. -/
inductive Names (r : Registry) : List Char → List String → String → Prop where
  | registered {s : List Char} (h : r.contains (String.ofList s) = true) :
    Names r s [] (String.ofList s)
  | element {s e : List Char} {shape : Shape} {way : List String} {name : String}
    (h : Unnamed r s) (hc : composite? s = some (shape, e)) (hnames : Names r e way name) :
    Names r s (elementKeyword shape :: way) name
  | member {s m : List Char} {i : Nat} {way : List String} {name : String}
    (h : Unnamed r s) (hc : composite? s = none) (hl : literals? s = none) (hs : '|' ∈ s)
    (hm : (members s)[i]? = some m) (hnames : Names r m way name) :
    Names r s ("anyOf" :: toString i :: way) name

theorem contains_of_names {name : String} (h : Names r s way name) : r.contains name = true := by
  induction h with
  | registered h => exact h
  | element _ _ _ ih => exact ih
  | member _ _ _ _ _ _ ih => exact ih

/-- How a name is referred to. -/
def refTo (name : String) : String := "#/$defs/" ++ name

/-- A registered name names itself only. -/
theorem names_registered {name : String} (h : r.contains (String.ofList s) = true) :
    Names r s way name ↔ way = [] ∧ name = String.ofList s := by
  have hopen : ¬Unnamed r s := fun hs => by
    have := hs.registered
    rw [h] at this
    cases this
  constructor
  · intro hnames
    cases hnames with
    | registered => exact ⟨rfl, rfl⟩
    | element hs => exact absurd hs hopen
    | member hs => exact absurd hs hopen
  · rintro ⟨rfl, rfl⟩
    exact .registered h

/-- A basic type that is not registered names nothing. -/
theorem not_names_primitive {name type : String} (hr : r.contains (String.ofList s) = false)
    (h : primitive? (String.ofList s) = some type) : ¬Names r s way name := by
  have hopen : ¬Unnamed r s := fun hs => by
    have := hs.primitive
    rw [h] at this
    cases this
  intro hnames
  cases hnames with
  | registered h =>
    rw [hr] at h
    cases h
  | element hs => exact hopen hs
  | member hs => exact hopen hs

namespace Unnamed

variable (h : Unnamed r s)

include h

theorem names_composite {name : String} {shape : Shape} {e : List Char}
    (hc : composite? s = some (shape, e)) :
    Names r s way name ↔ ∃ rest, way = elementKeyword shape :: rest ∧ Names r e rest name := by
  constructor
  · intro hnames
    cases hnames with
    | registered hr =>
      rw [h.registered] at hr
      cases hr
    | element _ hc' hnames =>
      obtain ⟨rfl, rfl⟩ := Prod.mk.inj (Option.some.inj (hc.symm.trans hc'))
      exact ⟨_, rfl, hnames⟩
    | member _ hc' =>
      rw [hc] at hc'
      cases hc'
  · rintro ⟨rest, rfl, hnames⟩
    exact .element h hc hnames

variable (hc : composite? s = none)

include hc

theorem names_eq {name : String} : Names r s way name ↔ literals? s = none ∧ '|' ∈ s ∧
    ∃ (i : Nat) (m : List Char) (rest : List String), way = "anyOf" :: toString i :: rest ∧
      (members s)[i]? = some m ∧ Names r m rest name := by
  constructor
  · intro hnames
    cases hnames with
    | registered hr =>
      rw [h.registered] at hr
      cases hr
    | element _ hc' =>
      rw [hc] at hc'
      cases hc'
    | member _ _ hl hs hm hnames => exact ⟨hl, hs, _, _, _, rfl, hm, hnames⟩
  · rintro ⟨hl, hs, i, m, rest, rfl, hm, hnames⟩
    exact .member h hc hl hs hm hnames

end Unnamed

/-- The references in the schema of a type expression are those to the types that it names. -/
theorem refAt_schemaOf : ∀ {s : List Char} {way : List String},
    (Value.object (schemaOf r s)).RefAt way ref ↔ ∃ name, Names r s way name ∧ ref = refTo name
  | s, way => by
    cases hr : r.contains (String.ofList s) with
    | true =>
      rw [schemaOf_registered hr, reference, Value.refAt_ref]
      simp only [names_registered hr]
      constructor
      · rintro ⟨hway, rfl⟩
        exact ⟨_, ⟨hway, rfl⟩, rfl⟩
      · rintro ⟨_, ⟨hway, rfl⟩, rfl⟩
        exact ⟨hway, rfl⟩
    | false =>
    cases hp : primitive? (String.ofList s) with
    | some type =>
      rw [schemaOf_primitive hr hp, typeOnly]
      have hnone : ¬(Value.object [("type", Value.string type)]).RefAt way ref :=
        Value.not_refAt_plain (by decide)
      simp only [hnone, not_names_primitive hr hp, false_and, exists_false]
    | none =>
    have h : Unnamed r s := ⟨hr, hp⟩
    cases hc : composite? s with
    | some c =>
      obtain ⟨shape, e⟩ := c
      have hlt := length_of_composite? hc
      have hinsert : Fields.insert (typeOnly (shapeName shape)) (elementKeyword shape)
          (.object (schemaOf r e)) = Fields.insert [(elementKeyword shape, .object (schemaOf r e))]
            "type" (.string (shapeName shape)) :=
        Json.Fields.insert_insert_comm (by cases shape <;> decide) _ _ []
      have hkeyword : elementKeyword shape ∉
          "$ref" :: (Json.plainKeywords ++ Json.namedKeywords) := by
        cases shape <;> decide
      rw [h.schemaOf_composite hc, hinsert, Value.refAt_insert (by decide),
        Value.refAt_keyword hkeyword]
      simp only [h.names_composite hc, refAt_schemaOf (s := e)]
      constructor
      · rintro ⟨rest, hway, name, hnames, hname⟩
        exact ⟨name, ⟨rest, hway, hnames⟩, hname⟩
      · rintro ⟨name, ⟨rest, hway, hnames⟩, hname⟩
        exact ⟨rest, hway, name, hnames, hname⟩
    | none =>
    simp only [h.names_eq hc]
    cases hl : literals? s with
    | some e =>
      obtain ⟨kind, vs⟩ := e
      rw [h.schemaOf_literals hc hl]
      have hnone : ¬(Value.object [("enum", Value.array vs)]).RefAt way ref :=
        Value.not_refAt_plain (by decide)
      simp [hnone]
    | none =>
    by_cases hs : '|' ∈ s
    · rw [h.schemaOf_union hc hl hs, Value.refAt_keyword (by decide)]
      simp only [Value.refAt_array, List.getElem?_map, Option.map_eq_some_iff]
      constructor
      · rintro ⟨_, rfl, i, _, rest, rfl, ⟨m, hm, rfl⟩, href⟩
        have hlt := length_lt_of_mem_members (by simpa using hs) (List.mem_of_getElem? hm)
        obtain ⟨name, hnames, rfl⟩ := refAt_schemaOf.mp href
        exact ⟨name, ⟨trivial, hs, i, m, rest, rfl, hm, hnames⟩, rfl⟩
      · rintro ⟨name, ⟨-, -, i, m, rest, rfl, hm, hnames⟩, hname⟩
        have hlt := length_lt_of_mem_members (by simpa using hs) (List.mem_of_getElem? hm)
        exact ⟨_, rfl, i, _, rest, rfl, ⟨m, hm, rfl⟩, refAt_schemaOf.mpr ⟨name, hnames, hname⟩⟩
    · rw [h.schemaOf_unknown hc hl hs]
      simp [Value.not_refAt_nil, hs]
  termination_by s => s.length

end TypeExpr

/-! ## Names in a registry -/

variable {r : Registry} {way : List String} {ref name : String}

theorem refAt_withDescription {fs : Fields} (description : Option String) :
    (Value.object (withDescription description fs)).RefAt way ref ↔
      (Value.object fs).RefAt way ref := by
  cases description with
  | none => rfl
  | some d => exact Value.refAt_insert (by decide)

theorem refAt_withBounds {fs : Fields} (b : Bounds) :
    (Value.object (withBounds b fs)).RefAt way ref ↔ (Value.object fs).RefAt way ref := by
  refine Value.refAt_extend fun e he => ?_
  obtain ⟨⟨keyword, n⟩, hmem, rfl⟩ := List.mem_map.mp he
  obtain ⟨⟨k, m⟩, hk, heq⟩ := List.mem_filterMap.mp hmem
  obtain ⟨_, -, heq⟩ := Option.map_eq_some_iff.mp heq
  obtain ⟨rfl, -⟩ := Prod.mk.inj heq
  have hkeywords : ∀ k ∈ ["minLength", "maxLength", "minimum", "maximum", "minItems", "maxItems",
      "minProperties", "maxProperties"], k ∈ Json.plainKeywords :=
    List.forall_iff_forall_mem.mp (by decide)
  refine hkeywords k ?_
  have := List.mem_map_of_mem (f := Prod.fst) hk
  exact this

/-- A property names the registered types that its type names. -/
def PropDef.Names (r : Registry) (p : PropDef) (way : List String) (name : String) : Prop :=
  ∃ type, p.type = some type ∧ TypeExpr.Names r (Text.trim type.toList) way name

/-- A named type names the registered types that its properties name or, if it is no object type,
those that its base names. Of properties with one name the last counts. -/
def TypeDef.Names (r : Registry) (d : TypeDef) (way : List String) (name : String) : Prop :=
  if d.isObject then
    ∃ key p rest, way = "properties" :: key :: rest ∧ Table.find? d.props.reverse key = some p ∧
      p.Names r rest name
  else TypeExpr.Names r (Text.trim d.base.toList) way name

/-- A registry names the registered types that its definitions name. -/
def Registry.Names (r : Registry) (way : List String) (name : String) : Prop :=
  ∃ d ∈ r.defs, ∃ rest, way = "$defs" :: d.name :: rest ∧ d.Names r rest name

theorem PropDef.refAt_schema (p : PropDef) : (p.schema r).RefAt way ref ↔
    ∃ name, p.Names r way name ∧ ref = TypeExpr.refTo name := by
  unfold schema Names
  extract_lets base described defaulted
  have hbase : (Value.object base).RefAt way ref ↔ ∃ name, (∃ type, p.type = some type ∧
      TypeExpr.Names r (Text.trim type.toList) way name) ∧ ref = TypeExpr.refTo name := by
    unfold base
    cases p.type with
    | none => simp [Value.not_refAt_nil]
    | some t => simp [TypeExpr.schema, TypeExpr.refAt_schemaOf]
  have hdescribed : (Value.object described).RefAt way ref ↔ (Value.object base).RefAt way ref :=
    refAt_withDescription p.description
  have hdefaulted : (Value.object defaulted).RefAt way ref ↔
      (Value.object described).RefAt way ref := by
    unfold defaulted
    cases p.default with
    | none => rfl
    | some v => exact Value.refAt_insert (by decide)
  rw [refAt_withBounds, hdefaulted, hdescribed, hbase]

theorem Table.find?_map_values {κ α β : Type} [DecidableEq κ] (g : α → β) (k : κ) :
    ∀ t : Table κ α, find? (t.map fun e => (e.1, g e.2)) k = (find? t k).map g
  | [] => rfl
  | (l, a) :: t => by
    rw [List.map_cons, find?, find?, find?_map_values g k t]
    split <;> rfl

theorem TypeDef.refAt_objectSchema (props : List (String × PropDef)) :
    (Value.object (objectSchema r props)).RefAt way ref ↔
      ∃ key p rest, way = "properties" :: key :: rest ∧ Table.find? props.reverse key = some p ∧
        (p.schema r).RefAt rest ref := by
  cases props with
  | nil =>
    have hnone : ¬(Value.object (objectSchema r [])).RefAt way ref :=
      Value.not_refAt_plain (by decide)
    simp [hnone]
  | cons e props =>
    have hschema : ∀ k ∉ Json.plainKeywords, Fields.find? (objectSchema r (e :: props)) k =
        Fields.find? [("properties", .object (Fields.ofList
          ((e :: props).map fun e => (e.1, e.2.schema r))))] k := by
      intro k hk
      have hother : ∀ l ∈ Json.plainKeywords, l ≠ k := fun l hl heq => hk (heq ▸ hl)
      have hrequired : "required" ≠ k := hother _ (by decide)
      have htype : "type" ≠ k := hother _ (by decide)
      simp only [objectSchema, List.isEmpty_cons, Bool.false_eq_true, if_false,
        List.cons_append, List.nil_append, Fields.find?, TypeExpr.typeOnly]
      refine if_congr Iff.rfl rfl ?_
      split <;> simp [Fields.find?, hrequired, htype]
    rw [Value.RefAt.congr hschema, Value.refAt_named (by decide)]
    simp only [Json.Fields.find?_ofList_eq, ← List.map_reverse,
      Table.find?_map_values (PropDef.schema r), Option.map_eq_some_iff]
    constructor
    · rintro ⟨key, _, rest, hway, ⟨p, hp, rfl⟩, href⟩
      exact ⟨key, p, rest, hway, hp, href⟩
    · rintro ⟨key, p, rest, hway, hp, href⟩
      exact ⟨key, _, rest, hway, ⟨p, hp, rfl⟩, href⟩

theorem TypeDef.refAt_schema (d : TypeDef) : (d.schema r).RefAt way ref ↔
    ∃ name, d.Names r way name ∧ ref = TypeExpr.refTo name := by
  rw [schema, refAt_withBounds, refAt_withDescription]
  unfold Names
  cases d.isObject with
  | true =>
    simp only [if_true, refAt_objectSchema, PropDef.refAt_schema]
    constructor
    · rintro ⟨key, p, rest, hway, hp, name, hnames, hname⟩
      exact ⟨name, ⟨key, p, rest, hway, hp, hnames⟩, hname⟩
    · rintro ⟨name, ⟨key, p, rest, hway, hp, hnames⟩, hname⟩
      exact ⟨key, p, rest, hway, hp, name, hnames, hname⟩
  | false => simp [TypeExpr.schema, TypeExpr.refAt_schemaOf]

theorem Registry.find?_of_mem {d : TypeDef} (h : d ∈ r.defs) : r.find? d.name = some d := by
  obtain ⟨e, he⟩ : ∃ e, r.find? d.name = some e :=
    Option.isSome_iff_exists.mp (List.find?_isSome.mpr ⟨d, h, beq_self_eq_true _⟩)
  rw [he, List.inj_on_of_nodup_map r.nodup (mem_of_find? he) h (name_of_find? he)]

/-- The entries of the document are the schemas of the definitions. -/
theorem Registry.find?_entries {key : String} {v : Value} :
    (Fields.ofList (r.defs.map fun d => (d.name, d.schema r))).find? key = some v ↔
      ∃ d, r.find? key = some d ∧ d.schema r = v := by
  have hnodup : ((r.defs.map fun d => (d.name, d.schema r)).map Prod.fst).Nodup := by
    rw [List.map_map]
    exact r.nodup
  rw [Json.Fields.find?_ofList hnodup, List.mem_map]
  constructor
  · rintro ⟨d, hd, heq⟩
    obtain ⟨rfl, rfl⟩ := Prod.mk.inj heq
    exact ⟨d, find?_of_mem hd, rfl⟩
  · rintro ⟨d, hd, rfl⟩
    exact ⟨d, mem_of_find? hd, by rw [name_of_find? hd]⟩

theorem Registry.refAt_schema : r.schema.RefAt way ref ↔
    ∃ name, r.Names way name ∧ ref = TypeExpr.refTo name := by
  have hschema : ∀ k ∉ Json.plainKeywords,
      Fields.find? [("$defs", .object (Fields.ofList (r.defs.map fun d => (d.name, d.schema r)))),
        ("$schema", .string schemaDraft)] k =
      Fields.find? [("$defs", .object (Fields.ofList
        (r.defs.map fun d => (d.name, d.schema r))))] k := by
    intro k hk
    have hdraft : "$schema" ≠ k := fun heq => hk (heq ▸ by decide)
    simp [Fields.find?, hdraft]
  rw [schema, Value.RefAt.congr hschema, Value.refAt_named (by decide)]
  simp only [find?_entries]
  constructor
  · rintro ⟨key, _, rest, rfl, ⟨d, hd, rfl⟩, href⟩
    obtain ⟨name, hnames, rfl⟩ := d.refAt_schema.mp href
    exact ⟨name, ⟨d, mem_of_find? hd, rest, by rw [name_of_find? hd], hnames⟩, rfl⟩
  · rintro ⟨name, ⟨d, hd, rest, rfl, hnames⟩, rfl⟩
    exact ⟨d.name, _, rest, rfl, ⟨d, find?_of_mem hd, rfl⟩, d.refAt_schema.mpr ⟨name, hnames, rfl⟩⟩

theorem Registry.Names.contains (h : r.Names way name) : r.contains name = true := by
  obtain ⟨d, -, rest, -, h⟩ := h
  unfold TypeDef.Names at h
  split at h
  · obtain ⟨key, p, rest, -, -, type, -, hnames⟩ := h
    exact TypeExpr.contains_of_names hnames
  · exact TypeExpr.contains_of_names h

/-- The schema document is written so that it is read back. Its references are those to the
registered types that its type expressions name, each where the expression stands. Each of these
types has an entry in the document, and the reference, read as a pointer in a fragment, leads to it
exactly if every character of the name stands for itself in such a pointer. -/
theorem Registry.refAt_schema_resolves (raw : Char → Bool)
    (hraw : ∀ c, Json.Pointer.isFragmentChar c = true → raw c = true) :
    (∀ indented, Json.Node.read? (r.schemaText indented).toList = some r.schema.node) ∧
    (∀ way ref, r.schema.RefAt way ref →
      ∃ fs, r.schema.at? way = some (.object fs) ∧ Fields.find? fs "$ref" = some (.string ref)) ∧
    (∀ way ref, r.schema.RefAt way ref ↔ ∃ name, r.Names way name ∧ ref = TypeExpr.refTo name) ∧
    ∀ way name, r.Names way name → ∃ d, r.find? name = some d ∧
      r.schema.at? ["$defs", name] = some (d.schema r) ∧
        (Json.Pointer.ofReference? raw (TypeExpr.refTo name) = some ["$defs", name] ↔
          ∀ c ∈ name.toList, Json.Pointer.Plain raw c) := by
  refine ⟨fun indented => Json.Node.read?_text (Value.wellFormed_node _) indented,
    fun way ref h => h.at?, fun way ref => refAt_schema, fun way name h => ?_⟩
  obtain ⟨d, hd⟩ := Option.isSome_iff_exists.mp h.contains
  have hentry := find?_entries.mpr ⟨d, hd, rfl⟩
  refine ⟨d, hd, ?_, ?_⟩
  · rw [schema, Value.at?, Fields.find?, if_pos rfl, Option.bind_some, Value.at?, hentry,
      Option.bind_some, Value.at?]
  · have hkey : ∀ c ∈ "$defs".toList, Json.Pointer.Plain raw c := by
      have hplain : ∀ c ∈ ['$', 'd', 'e', 'f', 's'], Json.Pointer.isFragmentChar c = true ∧
          c ≠ '%' ∧ c ≠ '/' ∧ c ≠ '~' := List.forall_iff_forall_mem.mp (by decide)
      exact fun c hc => ⟨hraw c (hplain c hc).1, (hplain c hc).2⟩
    have hwritten : TypeExpr.refTo name = "#/" ++ "$defs" ++ "/" ++ name := rfl
    rw [hwritten]
    exact Json.Pointer.ofReference?_eq_iff (hraw '/' (by decide)) hkey

/-- A registry with a type whose property is an array of members of a union. -/
def boxRegistry : Registry :=
  Registry.empty.registerAll [{ name := "Unit.Name", base := "string" },
    { name := "Box", base := "Object",
      props := [("all", { name := "all", type := some "Array<Unit.Name|null>" })] }]

theorem Registry.refAt_schema_resolves_box :
    boxRegistry.schema.RefAt ["$defs", "Box", "properties", "all", "items", "anyOf", "0"]
      "#/$defs/Unit.Name" ∧
    Json.Pointer.ofReference? Json.Pointer.isFragmentChar "#/$defs/Unit.Name" =
      some ["$defs", "Unit.Name"] ∧
    (boxRegistry.schema.at? ["$defs", "Unit.Name"]).isSome = true := by
  obtain ⟨-, -, hrefs, hresolves⟩ :=
    refAt_schema_resolves (r := boxRegistry) Json.Pointer.isFragmentChar fun _ h => h
  have hnames : boxRegistry.Names
      ["$defs", "Box", "properties", "all", "items", "anyOf", "0"] "Unit.Name" := by
    have hself : TypeExpr.Names boxRegistry "Unit.Name".toList [] "Unit.Name" := by
      have := TypeExpr.Names.registered (r := boxRegistry) (s := "Unit.Name".toList) (by cbv)
      rwa [String.ofList_toList] at this
    have hunion : TypeExpr.Names boxRegistry "Unit.Name|null".toList ["anyOf", "0"] "Unit.Name" :=
      .member (i := 0) ⟨by cbv, by cbv⟩ (by cbv) (by cbv) (by decide) (by cbv) hself
    have hcomposite : TypeExpr.composite? "Array<Unit.Name|null>".toList =
        some (.array, "Unit.Name|null".toList) := by cbv
    have harray : TypeExpr.Names boxRegistry "Array<Unit.Name|null>".toList
        ["items", "anyOf", "0"] "Unit.Name" :=
      .element ⟨by cbv, by cbv⟩ hcomposite hunion
    refine ⟨_, List.mem_cons_of_mem _ List.mem_cons_self, _, rfl, ?_⟩
    exact ⟨"all", _, _, rfl, rfl, _, rfl, harray⟩
  obtain ⟨d, -, hentry, hpointer⟩ := hresolves _ _ hnames
  have hplain : ∀ c ∈ "Unit.Name".toList,
      Json.Pointer.Plain Json.Pointer.isFragmentChar c := by
    have hall : ∀ c ∈ "Unit.Name".toList, Json.Pointer.isFragmentChar c = true ∧ c ≠ '%' ∧
        c ≠ '/' ∧ c ≠ '~' := List.forall_iff_forall_mem.mp (by decide)
    exact hall
  exact ⟨(hrefs _ _).mpr ⟨_, hnames, rfl⟩, hpointer.mpr hplain, by rw [hentry]; rfl⟩

/-- A registry with a type whose name has a slash. -/
def slashRegistry : Registry :=
  Registry.empty.registerAll [{ name := "a/b", base := "string" },
    { name := "T", base := "a/b" }]

/-- The slash in a name is read as the end of a token. -/
theorem Registry.not_forall_refAt_schema_resolves :
    ¬∀ (r : Registry) (way : List String) (ref : String), r.schema.RefAt way ref →
      ∃ name d, r.find? name = some d ∧
        Json.Pointer.ofReference? Json.Pointer.isFragmentChar ref = some ["$defs", name] := by
  intro h
  have hself : TypeExpr.Names slashRegistry "a/b".toList [] "a/b" := by
    have := TypeExpr.Names.registered (r := slashRegistry) (s := "a/b".toList) (by cbv)
    rwa [String.ofList_toList] at this
  have hnames : slashRegistry.Names ["$defs", "T"] "a/b" :=
    ⟨_, List.mem_cons_of_mem _ List.mem_cons_self, _, rfl, hself⟩
  have href : slashRegistry.schema.RefAt ["$defs", "T"] "#/$defs/a/b" :=
    refAt_schema.mpr ⟨_, hnames, rfl⟩
  obtain ⟨name, d, -, hread⟩ := h slashRegistry _ _ href
  have htokens : Json.Pointer.ofReference? Json.Pointer.isFragmentChar "#/$defs/a/b" =
      some ["$defs", "a", "b"] := by decide +kernel
  rw [htokens] at hread
  cases hread

end CallContract
