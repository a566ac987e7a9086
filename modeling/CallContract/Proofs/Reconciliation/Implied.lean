import CallContract.Proofs.Reconciliation.WrittenOut

/-!
# Parameters that others stand for

The parameters that properties document are told by the chains of keys that lead to a property of
theirs, or to one of a property (`mem_propEntries_iff`) : a documented parameter of a registered
object type stands for one parameter along each chain into what a lookup of the type gives
(`Documented.mem_implied_iff`). Of what several parameters stand for, be it at the same path, the
first is added unless something is there, and nothing is moved. So what is documented stays as it is
and ahead of the rest, all that is added is at the end of a chain, and no chain is left without an
entry (`Documented.expanded_chains`).
-/

namespace CallContract

/-! ## Chains of keys -/

/-- The keys lead to `e` : to one of the properties `props`, or to one of a property of these, and
so on. -/
inductive PropDef.KeysTo : List (String × PropDef) → List String → String × PropDef → Prop
  | here {props : List (String × PropDef)} {e : String × PropDef} : e ∈ props →
    KeysTo props [e.1] e
  | within {props : List (String × PropDef)} {keys : List String} {e f : String × PropDef} :
    e ∈ props → KeysTo e.2.props keys f → KeysTo props (e.1 :: keys) f

namespace PropDef

variable {ps : List (String × PropDef)} {keys : List String} {e : String × PropDef}

theorem not_keysTo_nil : ¬KeysTo [] keys e := by
  rintro (he | ⟨he, -⟩)
  all_goals exact List.not_mem_nil he

theorem keysTo_cons_iff {name : String} {p : PropDef} : KeysTo ((name, p) :: ps) keys e ↔
    keys = [name] ∧ e = (name, p) ∨ (∃ rest, keys = name :: rest ∧ KeysTo p.props rest e) ∨
      KeysTo ps keys e := by
  constructor
  · rintro (he | ⟨he, hrest⟩)
    · rcases List.mem_cons.mp he with rfl | he
      · exact Or.inl ⟨rfl, rfl⟩
      · exact Or.inr (Or.inr (.here he))
    · rcases List.mem_cons.mp he with rfl | he
      · exact Or.inr (Or.inl ⟨_, rfl, hrest⟩)
      · exact Or.inr (Or.inr (.within he hrest))
  · rintro (⟨rfl, rfl⟩ | ⟨rest, rfl, hrest⟩ | h)
    · exact .here List.mem_cons_self
    · exact .within (e := (name, p)) List.mem_cons_self hrest
    · cases h with
      | here he => exact .here (List.mem_cons_of_mem _ he)
      | within he hrest => exact .within (List.mem_cons_of_mem _ he) hrest

variable {r : Registry} {way : List String} {d c : TypeDef} {p : PropDef} {key t : String}

theorem keysTo_filledIn (he : e ∈ d.props) :
    KeysTo (r.filledIn way d).props [e.1] (e.1, (r.fill way e.2).1) :=
  .here (Registry.mem_props_filledIn he)

/-- A chain of keys into an object type goes on from each property of that type. -/
theorem keysTo_filledIn_of_isObject (hp : (key, p) ∈ d.props) (hname : p.type = some t)
    (hway : t ∉ way) (hfind : r.find? t = some c) (ho : c.isObject = true)
    (h : KeysTo (r.filledIn (way ++ [t]) c).props keys e) :
    KeysTo (r.filledIn way d).props (key :: keys) e := by
  have hmem : (key, (r.fill way p).1) ∈ (r.filledIn way d).props := Registry.mem_props_filledIn hp
  rw [Registry.fill_of_isObject hname hway hfind ho] at hmem
  exact .within hmem h

end PropDef

/-- The path that keys lead to from a path. -/
def ArgPath.descend (path : ArgPath) (keys : List String) : ArgPath := keys.foldl child path

theorem ArgPath.leadsTo_descend : ∀ (keys : List String) (path : ArgPath),
    path.LeadsTo (path.descend keys)
  | [], _ => Or.inl rfl
  | key :: keys, path =>
    leadsTo_trans (Or.inr (path.isAbove_child key)) (leadsTo_descend keys (path.child key))

/-- What the property at the end of a chain of keys documents. -/
def PropDef.entryAt (path : ArgPath) (keys : List String) (e : String × PropDef) :
    ArgPath × Parameter :=
  (path.descend keys, .ofProp e.1 (path.descend keys) e.2)

mutual

theorem mem_entries_iff : ∀ {p : PropDef} {path : ArgPath} {x : ArgPath × Parameter},
    x ∈ p.entries path ↔ ∃ keys e, PropDef.KeysTo p.props keys e ∧ x = PropDef.entryAt path keys e
  | { props, .. }, path, x => by
    rw [PropDef.entries]
    exact mem_propEntries_iff

/-- Properties document a parameter along each chain of keys into them, and no other. -/
theorem mem_propEntries_iff : ∀ {ps : List (String × PropDef)} {parent : ArgPath}
    {x : ArgPath × Parameter}, x ∈ propEntries parent ps ↔
      ∃ keys e, PropDef.KeysTo ps keys e ∧ x = PropDef.entryAt parent keys e
  | [], parent, x => by
    rw [propEntries]
    exact iff_of_false List.not_mem_nil fun ⟨_, _, h, _⟩ => PropDef.not_keysTo_nil h
  | (name, p) :: ps, parent, x => by
    rw [propEntries, List.mem_cons, List.mem_append, mem_entries_iff, mem_propEntries_iff]
    simp only [PropDef.keysTo_cons_iff]
    constructor
    · rintro (rfl | ⟨keys, e, h, rfl⟩ | ⟨keys, e, h, rfl⟩)
      · exact ⟨[name], (name, p), Or.inl ⟨rfl, rfl⟩, rfl⟩
      · exact ⟨name :: keys, e, Or.inr (Or.inl ⟨keys, rfl, h⟩), rfl⟩
      · exact ⟨keys, e, Or.inr (Or.inr h), rfl⟩
    · rintro ⟨keys, e, ⟨rfl, rfl⟩ | ⟨rest, rfl, h⟩ | h, rfl⟩
      · exact Or.inl rfl
      · exact Or.inr (Or.inl ⟨rest, e, h, rfl⟩)
      · exact Or.inr (Or.inr ⟨keys, e, h, rfl⟩)

end

/-! ## Documented parameters -/

namespace Documented

variable {r : Registry} {params : Documented} {p : Parameter} {path : ArgPath}
  {x : ArgPath × Parameter}

/-- The parameter is of a registered object type, of which a lookup gives `d`. -/
def OfObjectType (r : Registry) (p : Parameter) (d : TypeDef) : Prop :=
  ∃ t, p.type = some t ∧ r.isObjectType t = true ∧ r.lookup? t = some d

theorem implied_of_ofObjectType {d : TypeDef} (h : OfObjectType r p d) :
    implied r path p = propEntries path d.props := by
  obtain ⟨t, ht, ho, hd⟩ := h
  have hdefinition : (definition r p).1 = some d := by rw [definition, ht, ← hd]; rfl
  rw [implied, hdefinition]
  exact if_pos ((Registry.isObject_of_lookup? hd).trans ho)

/-- A parameter stands for what is along the chains into the properties of its type. -/
theorem mem_implied_iff : x ∈ implied r path p ↔ ∃ d, OfObjectType r p d ∧
    ∃ keys e, PropDef.KeysTo d.props keys e ∧ x = PropDef.entryAt path keys e := by
  unfold implied
  cases ht : p.type with
  | none => simp [definition, OfObjectType, ht]
  | some t =>
    have hlookup : (definition r p).1 = r.lookup? t := by rw [definition, ht]; rfl
    rw [hlookup]
    cases hd : r.lookup? t with
    | none => simp [OfObjectType, ht, hd]
    | some d =>
      have hof : ∀ c, OfObjectType r p c ↔ r.isObjectType t = true ∧ d = c := by
        simp [OfObjectType, ht, hd]
      simp only [Registry.isObject_of_lookup? hd, hof]
      cases r.isObjectType t with
      | false => simp
      | true => simpa using mem_propEntries_iff

/-- What is documented is found as it is. -/
theorem find?_expanded_of_find? (h : params.find? path = some p) :
    (expanded r params).find? path = some p := by
  rw [expanded, Table.find?_foldl_insertNew, h, Option.some_or]

/-- All that is documented is there when what it stands for has been added, and all of that is. -/
theorem mem_keys_expanded_iff {k : ArgPath} : k ∈ (expanded r params).keys ↔
    k ∈ params.keys ∨ ∃ base ∈ params, ∃ d, OfObjectType r base.2 d ∧
      ∃ keys e, PropDef.KeysTo d.props keys e ∧ k = base.1.descend keys := by
  rw [expanded, Table.mem_keys_foldl_insertNew]
  refine or_congr_right ?_
  simp only [Table.keys, List.mem_map, List.mem_flatMap, mem_implied_iff]
  constructor
  · rintro ⟨_, ⟨base, hbase, d, hd, keys, e, he, rfl⟩, rfl⟩
    exact ⟨base, hbase, d, hd, keys, e, he, rfl⟩
  · rintro ⟨base, hbase, d, hd, keys, e, he, rfl⟩
    exact ⟨_, ⟨base, hbase, d, hd, keys, e, he, rfl⟩, rfl⟩

/-- Parameters that stand under their own paths stay as they are, in their order and ahead of all
that they stand for. What is added stands under its own path too, which leads from the path of a
parameter of a registered object type along a chain of keys into what a lookup of the type gives,
and says what the property there says. At the end of every such chain there is an entry, and no path
has two. -/
theorem expanded_chains (r : Registry) (h : Keyed params) :
    ∃ added, expanded r params = params ++ added ∧
      (∀ x ∈ added, x.2.path = x.1 ∧ ∃ base ∈ params, ∃ d, OfObjectType r base.2 d ∧
        ∃ keys e, PropDef.KeysTo d.props keys e ∧ x = PropDef.entryAt base.1 keys e) ∧
      (∀ base ∈ params, ∀ d, OfObjectType r base.2 d → ∀ keys e, PropDef.KeysTo d.props keys e →
        base.1.descend keys ∈ (expanded r params).keys) ∧
      (expanded r params).keys.Nodup := by
  obtain ⟨added, hadded⟩ : params <+: expanded r params := prefix_expanded
  have hexpanded := h.expanded (r := r)
  refine ⟨added, hadded.symm, fun x hx => ?_, fun base hbase d hd keys e he =>
    mem_keys_expanded_iff.mpr (Or.inr ⟨base, hbase, d, hd, keys, e, he, rfl⟩), hexpanded.nodup⟩
  have hmem : x ∈ expanded r params := hadded ▸ List.mem_append_right params hx
  refine ⟨hexpanded.path_eq x hmem, ?_⟩
  have hnew : x ∉ params := fun hparams => by
    have hnodup := hexpanded.nodup
    rw [← hadded, Table.keys, List.map_append] at hnodup
    exact List.disjoint_of_nodup_append hnodup (List.mem_map_of_mem hparams)
      (List.mem_map_of_mem hx)
  obtain ⟨base, hbase, himplied⟩ :=
    List.mem_flatMap.mp ((mem_foldl_insertNew hmem).resolve_left hnew)
  exact ⟨base, hbase, mem_implied_iff.mp himplied⟩

/-- An object type with a property. -/
def innerType : TypeDef :=
  { name := "Inner", base := "Object", props := [("a", { name := "a", type := some "string" })] }

/-- An object type with a property of that type. -/
def outerType : TypeDef :=
  { name := "Outer", base := "Object", props := [("k", { name := "k", type := some "Inner" })] }

def nestedTypes : Registry := ⟨[outerType, innerType], by decide⟩

/-- An argument and a property of it are documented as of the two types. -/
def nestedParams : Documented :=
  [(⟨"0"⟩, { name := "o", path := ⟨"0"⟩, type := some "Outer" }),
    (⟨"0.k"⟩, { name := "k", path := ⟨"0.k"⟩, type := some "Inner", description := some "K" })]

/-- The chains of both lead to one path. The property stays as it is documented. -/
theorem expanded_chains_nestedParams : Keyed nestedParams ∧
    ∃ added, expanded nestedTypes nestedParams = nestedParams ++ added ∧
      ⟨"0.k.a"⟩ ∈ Table.keys added ∧ ⟨"0.k"⟩ ∉ Table.keys added := by
  have hkeyed : Keyed nestedParams := ⟨by decide, by simp [nestedParams]⟩
  obtain ⟨added, heq, -, hchains, hnodup⟩ := expanded_chains nestedTypes hkeyed
  have hchain : PropDef.KeysTo (nestedTypes.filledIn ["Outer"] outerType).props ["k", "a"] _ :=
    PropDef.keysTo_filledIn_of_isObject List.mem_cons_self rfl (by decide) rfl rfl
      (PropDef.keysTo_filledIn (d := innerType) List.mem_cons_self)
  have hmem : ⟨"0.k.a"⟩ ∈ (expanded nestedTypes nestedParams).keys :=
    hchains _ List.mem_cons_self _ ⟨"Outer", rfl, rfl, Registry.lookup?_of_isObject rfl rfl⟩ _ _
      hchain
  rw [heq, Table.keys, List.map_append] at hmem hnodup
  refine ⟨hkeyed, added, heq, (List.mem_append.mp hmem).resolve_left (by decide), fun hk => ?_⟩
  exact List.disjoint_of_nodup_append hnodup (by decide) hk

end Documented

end CallContract
