import CallContract.Extraction
import CallContract.Proofs.Reconciliation.Implied

/-!
# Properties of object types

A variable that is documented as of an object type gives way to what the properties of the type
document (`Variables.replaced_of_typedAt`). If its argument is documented instead, as of an object
type that has the variable among its properties, the property is documented as of the base of its
type, since that is what filling it in leaves (`TypedProperty.find?_expanded`). So the variable
stays, unless the base itself is the name of an object type (`TypedProperty.replaced_iff`).
-/

namespace CallContract

open Documented (expanded implied Keyed Innermost mem_innermost_iff outerType innerType nestedTypes)
open Variables (GivesWay resolve resolve_of_givesWay)

/-! ## Variables that give way -/

/-- The variable `x` at the path has given way to what the properties of `c` document : it is no row
any more, and at the path of each property or below it there is a row, unless its name is taken. -/
structure Replaced (c : TypeDef) (x : String) (path : ArgPath)
    (result : Contract × List Warning) : Prop where
  gone : ∀ row, (x, row) ∈ result.1.vars → row.path ≠ path
  properties : ∀ e ∈ c.props, ∃ row : Parameter, (path.child e.1).LeadsTo row.path ∧
    row.path.lastKey? = some row.name ∧
      ((row.name, row) ∈ result.1.vars ∨ .aliasCollision result.1.name row.name ∈ result.2)

/-- What is below a path has an innermost parameter at its path or below it. -/
theorem Documented.exists_innermost_of_mem {ps : List Parameter} {path : ArgPath} {p : Parameter}
    (hp : p ∈ ps) (habove : path.isAbove p.path = true) :
    ∃ q, Innermost ps path q ∧ p.path.LeadsTo q.path := by
  by_cases h : ∃ q ∈ ps, p.path.isAbove q.path = true
  · obtain ⟨q, hq, hpq⟩ := h
    obtain ⟨b, hb, hbelow, hlast⟩ := ArgPath.exists_innermost (f := Parameter.path) hq hpq
    exact ⟨b, ⟨hb, ArgPath.isAbove_trans habove hbelow, hlast⟩, Or.inr hbelow⟩
  · exact ⟨p, ⟨hp, habove, fun q hq => Bool.eq_false_iff.mpr fun hpq => h ⟨q, hq, hpq⟩⟩,
      Or.inl rfl⟩

section

variable {r : Registry} {doc : Doc} {decl : Declaration} {x : String} {leaf entry : Parameter}
  {c : TypeDef} {inner t : String}

/-- What takes the place of a variable has nothing documented below it. -/
theorem Variables.path_ne_of_mem_rows {vars : Variables} {params : Documented} {path : ArgPath}
    {row b : Parameter} (hp : Keyed params)
    (hrow : row ∈ vars.flatMap fun e => (resolve r params e.2).rows) (hb : b ∈ params.values)
    (hbelow : path.isAbove b.path = true) : row.path ≠ path := by
  obtain ⟨_, -, _, -, -, -, q, hq, hcalled⟩ := standsIn_of_mem_rows hp hrow
  rintro rfl
  rw [hcalled.same] at hbelow
  exact Bool.false_ne_true ((hq.last b hb).symm.trans hbelow)

/-- A variable of an object type gives way to the properties for which there are entries below
it. -/
theorem Variables.replaced_of_entries (hp : Keyed doc.params)
    (hleaf : (x, leaf) ∈ Variables.ofPatterns decl.params) (hsingle : leaf.isRest = false)
    (hfind : (expanded r doc.params).find? leaf.path = some entry)
    (htype : entry.type = some t) (ht : r.isObjectType t = true) (hne : c.props ≠ [])
    (hprops : ∀ e ∈ c.props, leaf.path.child e.1 ∈ (expanded r doc.params).keys) :
    Replaced c x leaf.path (Contract.ofDeclaration r (some doc) decl) := by
  have hkeyed := hp.expanded (r := r)
  have hvars := Variables.nodup_ofPatterns decl.params
  have hbelow : ∀ e ∈ c.props, ∃ p ∈ (expanded r doc.params).values,
      p.path = leaf.path.child e.1 := fun e he => by
    obtain ⟨p, hmem, hkey⟩ := List.mem_map.mp (hprops e he)
    exact ⟨p.2, List.mem_map_of_mem hmem, (hkeyed.path_eq p hmem).trans hkey⟩
  have hway : GivesWay r (expanded r doc.params).values leaf entry := by
    obtain ⟨d, hd, ho⟩ := Registry.isObjectType_iff.mp ht
    obtain ⟨e, he⟩ := List.exists_mem_of_ne_nil _ hne
    obtain ⟨p, hmem, hpath⟩ := hbelow e he
    refine ⟨hsingle, ⟨t, d, ?_, hd, ho⟩, p, hmem, hpath ▸ leaf.path.isAbove_child e.1⟩
    rw [type_eq_none _ hleaf, Option.none_or, htype]
  have hresolve := resolve_of_givesWay hfind hway
  obtain ⟨added, left, hresult, hperm, hleft, -⟩ := Variables.exists_added r doc decl
  constructor
  · intro row hrow hpath
    rw [hresult] at hrow
    rcases List.mem_append.mp hrow with hrow | hrow
    · exact Variables.not_mem_keys_keptRows hvars hleaf hresolve
        (List.mem_map.mpr ⟨(x, row), hrow, rfl⟩)
    · obtain ⟨p, hadded, heq⟩ := List.mem_map.mp hrow
      obtain ⟨rfl, rfl⟩ := Prod.mk.inj heq
      obtain ⟨b, hb, hbelow⟩ := hway.below
      exact path_ne_of_mem_rows hkeyed (hperm.mem_iff.mp (List.mem_append_left left hadded)) hb
        hbelow hpath
  · intro e he
    obtain ⟨p, hmem, hpath⟩ := hbelow e he
    obtain ⟨q, hq, hleads⟩ := Documented.exists_innermost_of_mem hmem
      (hpath ▸ leaf.path.isAbove_child e.1)
    obtain ⟨row, hcalled⟩ := hq.exists_calledByLastKey
    have hrowPath : row.path = q.path := by rw [hcalled.same]
    have hrow : row ∈ added ++ left := by
      refine hperm.mem_iff.mpr (List.mem_flatMap.mpr ⟨(x, leaf), hleaf, ?_⟩)
      rw [hresolve]
      exact mem_innermost_iff.mpr ⟨q, hq, hcalled⟩
    refine ⟨row, by rwa [hrowPath, ← hpath], hrowPath ▸ hcalled.lastKey,
      (List.mem_append.mp hrow).imp (fun h => ?_) (hleft row)⟩
    rw [hresult]
    exact List.mem_append_right _ (List.mem_map.mpr ⟨row, h, rfl⟩)

/-- A variable that is documented as of an object type with properties gives way to them. -/
theorem Variables.replaced_of_typedAt (hp : Keyed doc.params)
    (htyped : Documented.TypedAt doc.params leaf.path inner) (hc : r.find? inner = some c)
    (ho : c.isObject = true) (hne : c.props ≠ [])
    (hleaf : (x, leaf) ∈ Variables.ofPatterns decl.params) (hsingle : leaf.isRest = false) :
    Replaced c x leaf.path (Contract.ofDeclaration r (some doc) decl) := by
  obtain ⟨entry, hfind, htype⟩ := htyped
  have hof : Documented.OfObjectType r entry (r.filledIn [inner] c) :=
    ⟨inner, htype, Registry.isObjectType_iff.mpr ⟨c, hc, ho⟩, Registry.lookup?_of_isObject hc ho⟩
  have hprops : ∀ e ∈ c.props, leaf.path.child e.1 ∈ (expanded r doc.params).keys := fun e he =>
    Documented.mem_keys_expanded_iff.mpr (Or.inr ⟨_, Table.mem_of_find? hfind, _, hof, [e.1], _,
      PropDef.keysTo_filledIn he, rfl⟩)
  exact replaced_of_entries hp hleaf hsingle (Documented.find?_expanded_of_find? hfind) htype
    (Registry.isObjectType_iff.mpr ⟨c, hc, ho⟩) hne hprops

end

/-! ## Properties of an object type -/

/-- The argument at `i` is documented as of the object type `outer`, which has a property of another
object type, `inner`, that has properties itself. Nothing else that is documented is at or above the
path of the property, nor is a property in front of it. -/
structure TypedProperty (r : Registry) (params : Documented) (i : Nat) (outer key inner : String)
    (c : TypeDef) : Prop where
  keyed : Keyed params
  typed : Documented.TypedAt params (.root i) outer
  property : ∃ d front p behind, r.find? outer = some d ∧ d.isObject = true ∧
    d.props = front ++ (key, p) :: behind ∧ p.type = some inner ∧
      ∀ e ∈ front, ¬((ArgPath.root i).child e.1).LeadsTo ((ArgPath.root i).child key)
  inner_find : r.find? inner = some c
  inner_isObject : c.isObject = true
  inner_props : c.props ≠ []
  ne : inner ≠ outer
  alone : ∀ e ∈ params, e.1.LeadsTo ((ArgPath.root i).child key) → e.1 = .root i

theorem propEntries_append (parent : ArgPath) : ∀ ps qs : List (String × PropDef),
    propEntries parent (ps ++ qs) = propEntries parent ps ++ propEntries parent qs
  | [], _ => by rw [propEntries, List.nil_append, List.nil_append]
  | (name, p) :: ps, qs => by
    rw [List.cons_append, propEntries, propEntries, propEntries_append parent ps qs,
      List.cons_append, List.append_assoc]

/-- The property is found if none in front of it is at its path or above. -/
theorem find?_propEntries {parent : ArgPath} {front behind : List (String × PropDef)} {key : String}
    {p : PropDef} (h : ∀ e ∈ front, ¬(parent.child e.1).LeadsTo (parent.child key)) :
    Table.find? (propEntries parent (front ++ (key, p) :: behind)) (parent.child key) =
      some (.ofProp key (parent.child key) p) := by
  have hfront : parent.child key ∉ Table.keys (propEntries parent front) := by
    intro hmem
    obtain ⟨x, hx, hkey⟩ := List.mem_map.mp hmem
    obtain ⟨keys, e, hchain, rfl⟩ := mem_propEntries_iff.mp hx
    cases hchain with
    | here he => exact h e he (Or.inl hkey)
    | within he hchain =>
      refine h _ he ?_
      rw [← hkey]
      exact ArgPath.leadsTo_descend _ _
  rw [propEntries_append, Table.find?_append, Table.find?_eq_none_of_not_mem hfront,
    Option.none_or, propEntries, Table.find?, if_pos rfl]

namespace TypedProperty

variable {r : Registry} {params : Documented} {doc : Doc} {decl : Declaration} {i : Nat}
  {outer key inner x : String} {c : TypeDef} {leaf : Parameter}

/-- The property is documented as of the base of its type. What its type has is documented below
it. -/
theorem find?_expanded (h : TypedProperty r params i outer key inner c) :
    (∃ entry, (expanded r params).find? ((ArgPath.root i).child key) = some entry ∧
      entry.type = some objectBase) ∧
    ∀ e ∈ c.props, ((ArgPath.root i).child key).child e.1 ∈ (expanded r params).keys := by
  obtain ⟨e, he, htype⟩ := h.typed
  obtain ⟨d, front, p, behind, hd, ho, hprops, hp, hfront⟩ := h.property
  have hof : Documented.OfObjectType r e (r.filledIn [outer] d) :=
    ⟨outer, htype, Registry.isObjectType_iff.mpr ⟨d, hd, ho⟩, Registry.lookup?_of_isObject hd ho⟩
  have hway : inner ∉ [outer] := fun hmem => h.ne (List.mem_singleton.mp hmem)
  have hfill := Registry.fill_of_isObject hp hway h.inner_find h.inner_isObject
  have hparams : params.find? ((ArgPath.root i).child key) = none := by
    refine Table.find?_eq_none_of_not_mem fun hmem => ?_
    obtain ⟨f, hf, hkey⟩ := List.mem_map.mp hmem
    exact ArgPath.child_ne_root _ _ _ (hkey ▸ h.alone f hf (Or.inl hkey))
  constructor
  · refine ⟨.ofProp key ((ArgPath.root i).child key) (r.fill [outer] p).1, ?_,
      by rw [type_ofProp, hfill]; exact congrArg some (eq_of_beq h.inner_isObject)⟩
    rw [expanded, Table.find?_foldl_insertNew, hparams, Option.none_or]
    refine Table.find?_flatMap (Table.mem_of_find? he) ?_ fun f hf hmem => ?_
    · rw [Documented.implied_of_ofObjectType hof, Registry.filledIn, hprops, List.map_append,
        List.map_cons]
      refine find?_propEntries fun e he => ?_
      obtain ⟨f, hf, rfl⟩ := List.mem_map.mp he
      exact hfront f hf
    · obtain ⟨g, hg, hkey⟩ := List.mem_map.mp hmem
      have hroot := h.alone f hf (Or.inr (hkey ▸ Documented.isAbove_of_mem_implied g hg))
      exact List.inj_on_of_nodup_map h.keyed.nodup hf (Table.mem_of_find? he) hroot
  · intro f hf
    have hk : (key, p) ∈ d.props := hprops ▸ List.mem_append_right _ List.mem_cons_self
    exact Documented.mem_keys_expanded_iff.mpr (Or.inr ⟨_, Table.mem_of_find? he, _, hof,
      [key, f.1], _, PropDef.keysTo_filledIn_of_isObject hk hp hway h.inner_find h.inner_isObject
        (PropDef.keysTo_filledIn hf), rfl⟩)

/-- The variable stays, as of the base, if that is no name of an object type. -/
theorem exists_row (h : TypedProperty r doc.params i outer key inner c)
    (hleaf : (x, leaf) ∈ Variables.ofPatterns decl.params)
    (hpath : leaf.path = (ArgPath.root i).child key) (hbase : r.isObjectType objectBase = false) :
    ∃ row, (x, row) ∈ (Contract.ofDeclaration r (some doc) decl).1.vars ∧ row.path = leaf.path ∧
      row.type = some objectBase := by
  obtain ⟨⟨entry, hfind, htype⟩, -⟩ := h.find?_expanded
  rw [← hpath] at hfind
  have hnone := Variables.type_eq_none _ hleaf
  have hresolve : resolve r (expanded r doc.params) leaf = .kept (leaf.merge entry) := by
    refine Variables.resolve_of_plain hfind hnone (Variables.hasObjectType_eq_false fun t ht => ?_)
    rw [htype] at ht
    rw [← Option.some.inj ht, hbase]
  obtain ⟨added, -, hresult, -⟩ := Variables.exists_added r doc decl
  refine ⟨leaf.merge entry, ?_, rfl, ?_⟩
  · rw [hresult]
    exact List.mem_append_left _ (Variables.mem_keptRows hleaf hresolve)
  · rw [(Parameter.filledFrom_merge leaf entry).type, hnone, Option.none_or, htype]

/-- A variable whose argument is documented, and that is then of the type `inner`, gives way to the
properties of `inner` only if the base of object types is the name of an object type. If it is
documented itself as of the type, it gives way. -/
theorem replaced_iff (h : TypedProperty r doc.params i outer key inner c)
    (hleaf : (x, leaf) ∈ Variables.ofPatterns decl.params)
    (hpath : leaf.path = (ArgPath.root i).child key) (hsingle : leaf.isRest = false) :
    (Replaced c x leaf.path (Contract.ofDeclaration r (some doc) decl) ↔
      r.isObjectType objectBase = true) ∧
    (r.isObjectType objectBase = false →
      ∃ row, (x, row) ∈ (Contract.ofDeclaration r (some doc) decl).1.vars ∧
        row.path = leaf.path ∧ row.type = some objectBase) ∧
    ∀ doc', Keyed doc'.params → Documented.TypedAt doc'.params leaf.path inner →
      Replaced c x leaf.path (Contract.ofDeclaration r (some doc') decl) := by
  refine ⟨⟨fun hreplaced => ?_, fun hbase => ?_⟩, h.exists_row hleaf hpath, fun doc' hp htyped =>
    Variables.replaced_of_typedAt hp htyped h.inner_find h.inner_isObject h.inner_props hleaf
      hsingle⟩
  · by_contra hbase
    obtain ⟨row, hrow, hrowPath, -⟩ := h.exists_row hleaf hpath (Bool.eq_false_iff.mpr hbase)
    exact hreplaced.gone row hrow hrowPath
  · obtain ⟨⟨entry, hfind, htype⟩, hprops⟩ := h.find?_expanded
    rw [← hpath] at hfind hprops
    exact Variables.replaced_of_entries h.keyed hleaf hsingle hfind htype hbase
      h.inner_props hprops

/-- A comment that documents an argument as of the outer type. -/
def outerDoc : Doc :=
  { kind := .params, start := 0, stop := 1,
    params := [(⟨"0"⟩, { name := "o", path := ⟨"0"⟩, type := some "Outer" })] }

/-- A comment that documents the property itself as of the inner type. -/
def innerDoc : Doc :=
  { kind := .params, start := 0, stop := 1,
    params := [(⟨"0.k"⟩, { name := "o.k", path := ⟨"0.k"⟩, type := some "Inner" })] }

/-- A function that takes the property. -/
def takesNested : Declaration :=
  ⟨"f", [.object [.property (.ident "k") (.ident "k")]], 0, 1, none⟩

theorem typedProperty_outerDoc : TypedProperty nestedTypes outerDoc.params 0 "Outer" "k" "Inner"
    innerType where
  keyed := ⟨by decide, by simp [outerDoc]⟩
  typed := ⟨_, rfl, rfl⟩
  property := ⟨outerType, [], _, [], rfl, rfl, rfl, rfl, by simp⟩
  inner_find := rfl
  inner_isObject := rfl
  inner_props := by simp [innerType]
  ne := by decide
  alone e he _ := congrArg Prod.fst (List.mem_singleton.mp he)

theorem mem_ofPatterns_takesNested :
    ("k", { name := "k", path := ⟨"0.k"⟩ }) ∈ Variables.ofPatterns takesNested.params := by
  have hvars : Variables.ofPatterns takesNested.params =
      [("k", { name := "k", path := ⟨"0.k"⟩ })] := rfl
  exact hvars ▸ List.mem_cons_self

/-- The variable stays beside the first comment, and gives way beside the second. -/
theorem replaced_iff_nestedTypes :
    TypedProperty nestedTypes outerDoc.params 0 "Outer" "k" "Inner" innerType ∧
    (∃ row, ("k", row) ∈ (Contract.ofDeclaration nestedTypes (some outerDoc) takesNested).1.vars ∧
      row.path = ⟨"0.k"⟩ ∧ row.type = some "Object") ∧
    ¬Replaced innerType "k" ⟨"0.k"⟩
      (Contract.ofDeclaration nestedTypes (some outerDoc) takesNested) ∧
    Replaced innerType "k" ⟨"0.k"⟩
      (Contract.ofDeclaration nestedTypes (some innerDoc) takesNested) := by
  obtain ⟨hiff, hstays, hdirect⟩ :=
    replaced_iff typedProperty_outerDoc mem_ofPatterns_takesNested rfl rfl
  exact ⟨typedProperty_outerDoc, hstays rfl, fun h => Bool.false_ne_true (hiff.mp h),
    hdirect innerDoc ⟨by decide, by simp [innerDoc]⟩ ⟨_, rfl, rfl⟩⟩

/-- A variable does not give way to the properties of its type whenever it would if it were
documented itself. -/
theorem not_forall_replaced :
    ¬∀ (r : Registry) (doc : Doc) (decl : Declaration) (i : Nat) (outer key inner x : String)
      (c : TypeDef) (leaf : Parameter), TypedProperty r doc.params i outer key inner c →
        (x, leaf) ∈ Variables.ofPatterns decl.params → leaf.path = (ArgPath.root i).child key →
        leaf.isRest = false →
          Replaced c x leaf.path (Contract.ofDeclaration r (some doc) decl) := by
  intro h
  obtain ⟨row, hrow, hpath, -⟩ :=
    typedProperty_outerDoc.exists_row mem_ofPatterns_takesNested rfl rfl
  exact (h _ _ _ _ _ _ _ _ _ _ typedProperty_outerDoc mem_ofPatterns_takesNested rfl rfl).gone
    row hrow hpath

end TypedProperty

end CallContract
