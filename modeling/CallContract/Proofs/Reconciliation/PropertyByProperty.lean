import CallContract.Extraction
import CallContract.Proofs.Reconciliation.PropertyTags
import Mathlib

/-!
# A type and its properties one by one

A comment can say of an argument that it is of an object type, or that it is an object, and document
each property of the type by a tag of its own. A function that takes the argument apart has the same
variables and the same warnings beside both comments (`PropertyByProperty.ofDeclaration_eq`), unless
another tag documents a property ahead of the argument, or a tag for a property, or for something
above one, is of a registered object type : then what is said, or in which order, can differ
(`differsBeside_others`).
-/

namespace CallContract

open Doc (paramTags tagEntries paramTags_append paramTags_cons tagEntries_append
  tagEntries_undotted)

/-! ## Two comments -/

theorem Variables.stable_apart (i : Nat) :
    Stable fun p => p.type = none ∧ ¬p.path.LeadsTo (.root i) where
  otherName _ _ h := h
  inherit _ _ hp _ := hp

/-- Two comments, `front ++ typed :: behind` and `front ++ plain :: (written ++ behind)`. The first
says that the argument at `i` is of the object type `d`, no property of which is of a registered
type; the second says that it is an object, and documents each property by a tag of its own. -/
structure PropertyByProperty (r : Registry) (d : TypeDef) (i : Nat) (typed plain : Tag)
    (front written behind : List Tag) : Prop where
  typed_keyword : typed.keyword = "param"
  typed_undotted : '.' ∉ typed.name.toList
  typed_position : (paramTags front).countP Doc.isUndotted = i
  typed_type : ∃ t, nonEmpty typed.type = some t ∧ r.find? t = some d
  isObject : d.isObject = true
  property_types : ∀ e ∈ propEntries (.root i) d.props, ∀ t ∈ e.2.type, r.find? t = none
  property_paths : (Table.keys (propEntries (.root i) d.props)).Nodup
  plain_keyword : plain.keyword = "param"
  plain_name : plain.name = typed.name
  plain_type : plain.type = objectBase
  plain_unregistered : r.find? objectBase = none
  written_tags : PropertyTags typed.name d.props written

/-- The other tags leave the properties alone : none in front documents one of them, and none at or
above one of them is of a registered object type. -/
structure OthersApart (r : Registry) (d : TypeDef) (i : Nat) (front behind : List Tag) : Prop where
  front_paths : ∀ e ∈ Doc.paramPaths none (paramTags front),
    e.1 ∉ Table.keys (propEntries (.root i) d.props)
  above_types : ∀ e ∈ Doc.paramPaths none (paramTags front) ++
    Doc.paramPaths (some i) (paramTags behind), ∀ k ∈ Table.keys (propEntries (.root i) d.props),
      e.1.LeadsTo k → ∀ t, nonEmpty e.2.type = some t → r.isObjectType t = false

theorem Doc.path_parameter (path : ArgPath) (t : Tag) : (Doc.parameter path t).path = path := by
  rw [Doc.parameter, Parameter.path_withComposite]

theorem Doc.path_of_mem_tagEntries {n : Nat} {ts : List Tag} :
    ∀ e ∈ tagEntries n ts, e.2.path = e.1 := by
  intro e he
  obtain ⟨f, _, rfl⟩ := List.mem_map.mp he
  exact path_parameter f.1 f.2

/-- The parameters that a comment documents stand under their own paths. -/
theorem Doc.keyed_params {c : Source.Comment} {doc : Doc} (h : ofComment? c = some doc) :
    Documented.Keyed doc.params := by
  rw [params_ofComment? h]
  exact ⟨Table.nodup_ofList _, fun e he => path_of_mem_tagEntries e (Table.mem_ofList he)⟩

/-- No tag in front of the one for an argument or behind it is about that argument itself. -/
theorem ne_root_of_mem_tagEntries {i : Nat} {front behind : List Tag}
    (hi : (paramTags front).countP Doc.isUndotted = i) :
    ∀ e ∈ tagEntries 0 (paramTags front) ++ tagEntries (i + 1) (paramTags behind),
      e.1 ≠ .root i := by
  intro e he heq
  rcases List.mem_append.mp he with he | he
  · obtain ⟨f, hf, rfl⟩ := List.mem_map.mp he
    have := Doc.position_of_mem_paramPaths heq hf
    omega
  · obtain ⟨f, hf, rfl⟩ := List.mem_map.mp he
    have := Doc.position_of_mem_paramPaths heq hf
    omega

section

variable {r : Registry} {d : TypeDef} {i : Nat} {typed plain : Tag}
  {front written behind : List Tag}

theorem PropertyByProperty.writtenOut
    (h : PropertyByProperty r d i typed plain front written behind)
    (ha : OthersApart r d i front behind) :
    Documented.WrittenOut r (.root i) d.props (Doc.parameter (.root i) typed)
      (Doc.parameter (.root i) plain) (tagEntries 0 (paramTags front)) (tagEntries (i + 1) written)
      (tagEntries (i + 1) (paramTags behind)) := by
  have hagree : List.Forall₂ Documented.EntryAgrees (propEntries (.root i) d.props)
      (tagEntries (i + 1) written) :=
    h.written_tags.entries_agree h.typed_undotted (List.append_nil _).symm
      (List.append_nil _).symm (Or.inl rfl)
  have hkeys := Documented.keys_eq_of_agree hagree
  exact {
    typed_definition := by
      obtain ⟨t, ht, hd⟩ := h.typed_type
      refine ⟨d, ?_, h.isObject, rfl⟩
      rw [Documented.definition, Doc.type_parameter, ht]
      refine Registry.expand_of_unregistered hd h.isObject fun e he t ht => ?_
      refine h.property_types _ (mem_propEntries he) t ?_
      rwa [type_ofProp]
    plain_type := Variables.hasObjectType_eq_false fun t ht => by
      rw [Doc.type_parameter, h.plain_type] at ht
      obtain rfl : objectBase = t := Option.some.inj ht
      rw [Registry.isObjectType, h.plain_unregistered]
      rfl
    written_props := hagree
    nodup := hkeys ▸ h.property_paths
    written_type := fun e he => by
      obtain ⟨a, ha, _, hagrees⟩ := Documented.exists_of_agree hagree he
      rw [← hagrees.hasObjectType_eq]
      refine Variables.hasObjectType_eq_false fun t ht => ?_
      rw [Registry.isObjectType, h.property_types a ha t ht]
      rfl
    own_not_mem := ne_root_of_mem_tagEntries h.typed_position
    front_not_mem := fun e he => by
      obtain ⟨f, hf, rfl⟩ := List.mem_map.mp he
      exact hkeys ▸ ha.front_paths f hf
    above_type := fun e he k hk hleads => by
      rw [tagEntries, tagEntries, ← List.map_append] at he
      obtain ⟨f, hf, rfl⟩ := List.mem_map.mp he
      refine Variables.hasObjectType_eq_false fun t ht => ?_
      rw [Doc.type_parameter] at ht
      exact ha.above_types f hf k (hkeys ▸ hk) hleads t ht
    path_eq := fun e he => by
      simp only [List.mem_append, List.mem_cons] at he
      rcases he with he | rfl | rfl | he | he
      · exact Doc.path_of_mem_tagEntries e he
      · exact Doc.path_parameter _ _
      · exact Doc.path_parameter _ _
      · exact Doc.path_of_mem_tagEntries e he
      · exact Doc.path_of_mem_tagEntries e he }

namespace PropertyByProperty

variable (h : PropertyByProperty r d i typed plain front written behind) (text : String)
  (start stop : Nat)

include h

theorem params_typed : (Doc.ofBlock ⟨text, front ++ typed :: behind⟩ start stop).params =
    Documented.byType (.root i) (Doc.parameter (.root i) typed) (tagEntries 0 (paramTags front))
      (tagEntries (i + 1) (paramTags behind)) := by
  have htags : paramTags (front ++ typed :: behind) =
      paramTags front ++ typed :: paramTags behind := by
    rw [paramTags_append, paramTags_cons h.typed_keyword]
  rw [Doc.params_ofBlock, htags, tagEntries_append, h.typed_position,
    Nat.zero_add, tagEntries_undotted h.typed_undotted]
  rfl

theorem params_written :
    (Doc.ofBlock ⟨text, front ++ plain :: (written ++ behind)⟩ start stop).params =
      Documented.byProperty (.root i) (Doc.parameter (.root i) plain)
        (tagEntries 0 (paramTags front)) (tagEntries (i + 1) written)
        (tagEntries (i + 1) (paramTags behind)) := by
  have hwritten : paramTags written = written :=
    List.filter_eq_self.mpr fun t ht => by simp [h.written_tags.keyword_eq t ht]
  have htags : paramTags (front ++ plain :: (written ++ behind)) =
      paramTags front ++ plain :: (written ++ paramTags behind) := by
    rw [paramTags_append, paramTags_cons h.plain_keyword, paramTags_append, hwritten]
  have hplain : '.' ∉ plain.name.toList := h.plain_name ▸ h.typed_undotted
  rw [Doc.params_ofBlock, htags, tagEntries_append, h.typed_position,
    Nat.zero_add, tagEntries_undotted hplain, tagEntries_append, h.written_tags.countP_isUndotted]
  rfl

/-- Both comments describe the same. -/
theorem descriptionOf_eq : Doc.descriptionOf ⟨text, front ++ typed :: behind⟩ =
    Doc.descriptionOf ⟨text, front ++ plain :: (written ++ behind)⟩ := by
  have hparam : ∀ t : Tag, t.keyword = "param" → (t.keyword == "description") = false :=
    fun t ht => by rw [ht]; decide
  have hwritten : written.find? (·.keyword == "description") = none :=
    List.find?_eq_none.mpr fun t ht => by simp [h.written_tags.keyword_eq t ht]
  have hfirst : Doc.firstTag? "description" (front ++ typed :: behind) =
      Doc.firstTag? "description" (front ++ plain :: (written ++ behind)) := by
    simp only [Doc.firstTag?, List.find?_append, List.find?_cons, hparam _ h.typed_keyword,
      hparam _ h.plain_keyword, hwritten, Option.none_or]
  simp only [Doc.descriptionOf, hfirst]

/-- A function that takes the argument apart has the same contract, and the same warnings, beside
both comments if the other tags leave the properties alone. -/
theorem ofDeclaration_eq (ha : OthersApart r d i front behind) {decl : Declaration} {p : Pattern}
    (hp : decl.params[i]? = some p) (hapart : p.takesApart = true) (start' stop' : Nat) :
    Contract.ofDeclaration r (some (Doc.ofBlock ⟨text, front ++ typed :: behind⟩ start stop)) decl =
      Contract.ofDeclaration r
        (some (Doc.ofBlock ⟨text, front ++ plain :: (written ++ behind)⟩ start' stop')) decl := by
  have hleaves : ∀ leaf ∈ Pattern.allLeaves 0 decl.params,
      leaf.type = none ∧ ¬leaf.path.LeadsTo (.root i) := fun leaf hmem => by
    obtain ⟨_, _, _, hleaf⟩ := Pattern.leaf_of_mem_allLeaves leaf hmem
    exact ⟨hleaf.type_eq, Pattern.not_leadsTo_of_mem_allLeaves hp hapart leaf hmem⟩
  have hvars := Variables.forall_ofPatterns (Variables.stable_apart i) hleaves
  have hreconcile := Variables.reconcile_of_writtenOut (h.writtenOut ha)
    (fun e he => (hvars e he).1) (fun e he => (hvars e he).2) (h.params_typed text start stop)
    (h.params_written text start' stop') decl.name
  simp only [Contract.ofDeclaration, hreconcile, Option.bind_some, Doc.description_ofBlock,
    h.descriptionOf_eq text]

end PropertyByProperty

end

/-! ## Tags that do not leave the properties alone -/

/-- A parameter tag without a description. -/
def paramTag (type name : String) : Tag := ⟨"param", name, type, "", none, false, ""⟩

/-- An object type with a property. -/
def singleType (name key type : String) : TypeDef :=
  { name, base := objectBase, props := [(key, { name := key, type := some type })] }

/-- Object types with a property each. -/
def singleTypes : Registry :=
  ⟨[singleType "T" "a" "number", singleType "P" "q.z" "string", singleType "Q" "q" "string",
    singleType "U" "u" "string", singleType "V" "v" "string"], by decide⟩

theorem propEntries_singleType (name key type : String) (parent : ArgPath) :
    propEntries parent (singleType name key type).props = [(parent.child key,
      .ofProp key (parent.child key) { name := key, type := some type })] := by
  rw [entries_of_flat]
  · rfl
  · simp [singleType]

theorem propertyByProperty_singleType {name key type : String} {front behind : List Tag}
    (hd : singleTypes.find? name = some (singleType name key type))
    (htype : singleTypes.find? type = none)
    (hname : nonEmpty name = some name) (hne : nonEmpty type = some type)
    (hfront : (paramTags front).countP Doc.isUndotted = 0) :
    PropertyByProperty singleTypes (singleType name key type) 0 (paramTag name "x")
      (paramTag "Object" "x") front [paramTag type ("x." ++ key)] behind where
  typed_keyword := rfl
  typed_undotted := by simp [paramTag]
  typed_position := hfront
  typed_type := ⟨name, hname, hd⟩
  isObject := rfl
  property_types e he t ht := by
    rw [propEntries_singleType, List.mem_singleton] at he
    subst he
    rw [type_ofProp] at ht
    exact Option.some.inj ht ▸ htype
  property_paths := by
    rw [propEntries_singleType]
    exact List.nodup_singleton _
  plain_keyword := rfl
  plain_name := rfl
  plain_type := rfl
  plain_unregistered := by decide
  written_tags := by
    have hname : (paramTag type ("x." ++ key)).name = "x" ++ "." ++ key := by
      rw [paramTag, String.append_assoc]
      rfl
    have hrepeats : (paramTag type ("x." ++ key)).Repeats { name := key, type := some type } :=
      ⟨hne, rfl, rfl, rfl⟩
    exact .cons rfl hname hrepeats .nil .nil

/-- A function that takes a property of its argument apart. -/
def takesProperty (key : String) : Declaration :=
  ⟨"f", [.object [.property (.ident key) (.ident key)]], 0, 1, none⟩

/-- The function has the same contract and the same warnings beside two lists of tags. -/
def SameBeside (key : String) (ts ts' : List Tag) : Prop :=
  Contract.ofDeclaration singleTypes (some (Doc.ofBlock ⟨"", ts⟩ 0 1)) (takesProperty key) =
    Contract.ofDeclaration singleTypes (some (Doc.ofBlock ⟨"", ts'⟩ 0 1)) (takesProperty key)

theorem ofDeclaration_eq_singleType :
    PropertyByProperty singleTypes (singleType "T" "a" "number") 0 (paramTag "T" "x")
        (paramTag "Object" "x") [] [paramTag "number" "x.a"]
        [paramTag "string" "x.a", paramTag "U" "y"] ∧
      OthersApart singleTypes (singleType "T" "a" "number") 0 []
        [paramTag "string" "x.a", paramTag "U" "y"] ∧
      (takesProperty "a").params[0]? = some (.object [.property (.ident "a") (.ident "a")]) ∧
      SameBeside "a" ([] ++ paramTag "T" "x" :: [paramTag "string" "x.a", paramTag "U" "y"])
        ([] ++ paramTag "Object" "x" :: ([paramTag "number" "x.a"] ++
          [paramTag "string" "x.a", paramTag "U" "y"])) := by
  have h : PropertyByProperty singleTypes (singleType "T" "a" "number") 0 (paramTag "T" "x")
      (paramTag "Object" "x") [] [paramTag "number" "x.a"]
      [paramTag "string" "x.a", paramTag "U" "y"] :=
    propertyByProperty_singleType rfl rfl rfl rfl rfl
  have ha : OthersApart singleTypes (singleType "T" "a" "number") 0 []
      [paramTag "string" "x.a", paramTag "U" "y"] := by
    refine ⟨fun e he => (List.not_mem_nil he).elim, fun e he k hk hleads t ht => ?_⟩
    rw [propEntries_singleType] at hk
    obtain rfl : k = ⟨"0.a"⟩ := List.mem_singleton.mp hk
    have hpaths : Doc.paramPaths none (paramTags []) ++
        Doc.paramPaths (some 0) (paramTags [paramTag "string" "x.a", paramTag "U" "y"]) =
          [(⟨"0.a"⟩, paramTag "string" "x.a"), (⟨"1"⟩, paramTag "U" "y")] := by cbv
    rw [hpaths, List.mem_cons, List.mem_singleton] at he
    rcases he with rfl | rfl
    · obtain rfl : "string" = t := Option.some.inj ht
      rfl
    · exact absurd hleads (by decide +kernel)
  exact ⟨h, ha, rfl, h.ofDeclaration_eq "" 0 1 ha rfl rfl 0 1⟩

theorem expand_singleTypes {name key type : String}
    (hd : singleTypes.find? name = some (singleType name key type))
    (htype : singleTypes.find? type = none) :
    singleTypes.expand name = (some (singleType name key type), []) := by
  refine Registry.expand_of_unregistered hd rfl fun e he t ht => ?_
  rw [List.mem_singleton.mp he] at ht
  exact Option.some.inj ht ▸ htype

/-- The names and the types of the variables of the function beside documented parameters. -/
def rowsBeside (key : String) (params : Documented) : List (String × Option String) :=
  ((Variables.ofPatterns (takesProperty key).params).reconcile "f"
    (some { kind := .params, params, start := 0, stop := 1 }) singleTypes).1.map
      fun e => (e.1, e.2.type)

/-- A parameter that a tag without a description documents. -/
def plainEntry (path name type : String) : ArgPath × Parameter :=
  (⟨path⟩, { name, path := ⟨path⟩, type := some type, isOptional := some false })

theorem not_sameBeside_of_rows {key : String} {ts ts' : List Tag} (params params' : Documented)
    (h : (Doc.ofBlock ⟨"", ts⟩ 0 1).params = params)
    (h' : (Doc.ofBlock ⟨"", ts'⟩ 0 1).params = params')
    (hne : rowsBeside key params ≠ rowsBeside key params') : ¬SameBeside key ts ts' := by
  intro hsame
  refine hne ?_
  subst h h'
  exact congrArg (fun c => c.1.vars.map fun e => (e.1, e.2.type)) hsame

/-- The argument of the function is taken apart, its type has one property, and the two ways to
document it differ beside other tags. -/
def DiffersBeside (name key type taken : String) (front behind : List Tag) : Prop :=
  PropertyByProperty singleTypes (singleType name key type) 0 (paramTag name "x")
      (paramTag "Object" "x") front [paramTag type ("x." ++ key)] behind ∧
    (takesProperty taken).params.map Pattern.takesApart = [true] ∧
    ¬SameBeside taken (front ++ paramTag name "x" :: behind)
      (front ++ paramTag "Object" "x" :: ([paramTag type ("x." ++ key)] ++ behind))

/-- The two ways differ if a tag in front documents a property : with the type it is kept, with the
tag it is replaced. They differ if a tag for what is above a property, or for the property, is of an
object type : what stands below it comes in another order. -/
theorem differsBeside_others :
    DiffersBeside "T" "a" "number" "a" [paramTag "string" "x.a"] [] ∧
      DiffersBeside "P" "q.z" "string" "q" []
        [paramTag "U" "x.q", paramTag "string" "x.q.u"] ∧
      DiffersBeside "Q" "q" "string" "q" [] [paramTag "V" "x.q.z", paramTag "U" "x.q"] := by
  have hexpand : ∀ {name key type}, singleTypes.find? name = some (singleType name key type) →
      singleTypes.find? type = none →
        singleTypes.expand name = (some (singleType name key type), []) :=
    expand_singleTypes
  have hT : singleTypes.expand "T" = _ := hexpand rfl rfl
  have hP : singleTypes.expand "P" = _ := hexpand rfl rfl
  have hQ : singleTypes.expand "Q" = _ := hexpand rfl rfl
  have hU : singleTypes.expand "U" = _ := hexpand rfl rfl
  have hV : singleTypes.expand "V" = _ := hexpand rfl rfl
  have hobject : singleTypes.expand "Object" = _ := Registry.expand_of_find?_eq_none rfl
  have hstring : singleTypes.expand "string" = _ := Registry.expand_of_find?_eq_none rfl
  have hnumber : singleTypes.expand "number" = _ := Registry.expand_of_find?_eq_none rfl
  refine ⟨⟨propertyByProperty_singleType rfl rfl rfl rfl rfl, rfl, ?_⟩,
    ⟨propertyByProperty_singleType rfl rfl rfl rfl rfl, rfl, ?_⟩,
    ⟨propertyByProperty_singleType rfl rfl rfl rfl rfl, rfl, ?_⟩⟩
  · refine not_sameBeside_of_rows
      [plainEntry "0.a" "x.a" "string", plainEntry "0" "x" "T"]
      [plainEntry "0.a" "x.a" "number", plainEntry "0" "x" "Object"]
      (by cbv) (by cbv) ?_
    simp only [rowsBeside, Variables.reconcile, Documented.expanded, List.flatMap_cons, plainEntry,
      Documented.implied, Documented.definition, hT, hobject, hstring, hnumber]
    decide +kernel
  · refine not_sameBeside_of_rows
      [plainEntry "0" "x" "P", plainEntry "0.q" "x.q" "U",
        plainEntry "0.q.u" "x.q.u" "string"]
      [plainEntry "0" "x" "Object", plainEntry "0.q.z" "x.q.z" "string",
        plainEntry "0.q" "x.q" "U", plainEntry "0.q.u" "x.q.u" "string"]
      (by cbv) (by cbv) ?_
    simp only [rowsBeside, Variables.reconcile, Documented.expanded, List.flatMap_cons, plainEntry,
      Documented.implied, Documented.definition, hP, hU, hobject, hstring]
    decide +kernel
  · refine not_sameBeside_of_rows
      [plainEntry "0" "x" "Q", plainEntry "0.q.z" "x.q.z" "V",
        plainEntry "0.q" "x.q" "U"]
      [plainEntry "0" "x" "Object", plainEntry "0.q" "x.q" "U",
        plainEntry "0.q.z" "x.q.z" "V"]
      (by cbv) (by cbv) ?_
    simp only [rowsBeside, Variables.reconcile, Documented.expanded, List.flatMap_cons, plainEntry,
      Documented.implied, Documented.definition, hQ, hU, hV, hobject]
    decide +kernel

end CallContract
