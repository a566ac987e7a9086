import CallContract.Registry.Expansion
import Mathlib.Data.List.Nodup

/-!
# Filling in one property

`Registry.fill r way p` is what becomes of the property `p` within the object types `way`, with
the circles that are met. Filling in an object type is filling in its properties, one type
further down the way (`expandFrom_of_isObject`, `expand_of_isObject`); and a property is one of
four kinds (`fill_cases`): it names no registered type, or an object type that it stands in, or
a type that is no object type, or an object type off the way. Along the last kind the way grows
and the registry has fewer names left, which gives an induction (`fill_induction`).
-/

namespace CallContract

namespace Registry

variable {r : Registry} {way : List String} {name : String} {d : TypeDef}

/-- What becomes of a property within the object types `way`, and the circles that are met. -/
def fill (r : Registry) (way : List String) (p : PropDef) : PropDef × List Warning :=
  match p.type with
  | none => (p, [])
  | some t =>
    if ht : t ∈ way then (p, [.circularAlias (way ++ [t])])
    else
      match r.expandFrom way t ht with
      | (none, ws) => (p, ws)
      | (some n, ws) => (p.wrapped t n, ws)

/-- A type whose properties are filled in within the object types `way`. -/
def filledIn (r : Registry) (way : List String) (d : TypeDef) : TypeDef :=
  { d with props := d.props.map fun e => (e.1, (r.fill way e.2).1) }

/-- The circles that the properties of a type meet within the object types `way`. -/
def circlesIn (r : Registry) (way : List String) (d : TypeDef) : List Warning :=
  d.props.flatMap fun e => (r.fill way e.2).2

/-- Whether a name is that of an object type. -/
def isObjectType (r : Registry) (name : String) : Bool := (r.find? name).any TypeDef.isObject

theorem isObjectType_iff :
    r.isObjectType name = true ↔ ∃ d, r.find? name = some d ∧ d.isObject = true := by
  simp [isObjectType, Option.any_eq_true]

theorem nodup_append_singleton (h : way.Nodup) (hname : name ∉ way) : (way ++ [name]).Nodup := by
  simpa using List.Nodup.concat hname h

/-! ## Filling in a type -/

theorem expandFrom_of_find?_eq_none (hf : r.find? name = none) (h : name ∉ way) :
    r.expandFrom way name h = (none, []) := by
  rw [expandFrom]
  split
  · rfl
  · rename_i e he
    rw [hf] at he
    cases he

theorem expandFrom_of_not_isObject (hf : r.find? name = some d) (ho : d.isObject = false)
    (h : name ∉ way) : r.expandFrom way name h = (some d, []) := by
  rw [expandFrom]
  split
  · rename_i he
    rw [hf] at he
    cases he
  · rename_i e he
    obtain rfl := Option.some.inj (hf.symm.trans he)
    rw [if_neg (by simp [ho])]

/-- Filling in the properties of a type one by one, each with its circles. -/
theorem filledIn_of_step {step : String × PropDef → (String × PropDef) × List Warning}
    (h : ∀ e ∈ d.props, step e = ((e.1, (r.fill way e.2).1), (r.fill way e.2).2)) :
    (some { d with props := (d.props.map step).map Prod.fst },
        (d.props.map step).flatMap Prod.snd) =
      (some (r.filledIn way d), r.circlesIn way d) := by
  rw [List.map_congr_left h, filledIn, circlesIn, List.map_map, List.flatMap_map]
  rfl

theorem expandFrom_of_isObject (hf : r.find? name = some d) (ho : d.isObject = true)
    (h : name ∉ way) : r.expandFrom way name h =
      (some (r.filledIn (way ++ [name]) d), r.circlesIn (way ++ [name]) d) := by
  rw [expandFrom]
  split
  · rename_i he
    rw [hf] at he
    cases he
  · rename_i e he
    obtain rfl := Option.some.inj (hf.symm.trans he)
    rw [if_pos ho]
    refine filledIn_of_step fun e _ => ?_
    split
    · rename_i hname
      simp only [fill, hname]
    · rename_i t hname
      split
      · rename_i hway
        simp only [fill, hname, dif_pos hway]
      · rename_i hway
        simp only [fill, hname, dif_neg hway]
        rcases r.expandFrom (way ++ [name]) t hway with ⟨_ | n, ws⟩ <;> rfl

theorem expand_of_find?_eq_none (hf : r.find? name = none) : r.expand name = (none, []) :=
  expandFrom_of_find?_eq_none hf _

theorem expand_of_not_isObject (hf : r.find? name = some d) (ho : d.isObject = false) :
    r.expand name = (some d, []) :=
  expandFrom_of_not_isObject hf ho _

theorem expand_of_isObject (hf : r.find? name = some d) (ho : d.isObject = true) :
    r.expand name = (some (r.filledIn [name] d), r.circlesIn [name] d) :=
  expandFrom_of_isObject hf ho _

theorem lookup?_of_not_isObject (hf : r.find? name = some d) (ho : d.isObject = false) :
    r.lookup? name = some d := by
  rw [lookup?, expand_of_not_isObject hf ho]

theorem lookup?_of_isObject (hf : r.find? name = some d) (ho : d.isObject = true) :
    r.lookup? name = some (r.filledIn [name] d) := by
  rw [lookup?, expand_of_isObject hf ho]

/-- What a lookup gives is an object type if the name is that of one. -/
theorem isObject_of_lookup? (h : r.lookup? name = some d) : d.isObject = r.isObjectType name := by
  cases hfind : r.find? name with
  | none =>
    rw [lookup?, expand_of_find?_eq_none hfind] at h
    cases h
  | some c =>
    rw [isObjectType, hfind, Option.any_some]
    cases ho : c.isObject with
    | false =>
      rw [lookup?_of_not_isObject hfind ho] at h
      rw [← Option.some.inj h, ho]
    | true =>
      rw [lookup?_of_isObject hfind ho] at h
      rw [← Option.some.inj h]
      exact ho

theorem mem_props_filledIn {e : String × PropDef} (he : e ∈ d.props) :
    (e.1, (r.fill way e.2).1) ∈ (r.filledIn way d).props := List.mem_map.mpr ⟨e, he, rfl⟩

/-! ## Filling in a property -/

section

variable {p : PropDef} {t : String}

theorem fill_of_type_eq_none (hname : p.type = none) : r.fill way p = (p, []) := by
  simp [fill, hname]

theorem fill_of_mem (hname : p.type = some t) (hway : t ∈ way) :
    r.fill way p = (p, [.circularAlias (way ++ [t])]) := by
  simp [fill, hname, hway]

theorem fill_of_find?_eq_none (hname : p.type = some t) (hway : t ∉ way)
    (hfind : r.find? t = none) : r.fill way p = (p, []) := by
  simp [fill, hname, hway, expandFrom_of_find?_eq_none hfind]

theorem fill_of_not_isObject (hname : p.type = some t) (hway : t ∉ way)
    (hfind : r.find? t = some d) (ho : d.isObject = false) :
    r.fill way p = (p.wrapped t d, []) := by
  simp [fill, hname, hway, expandFrom_of_not_isObject hfind ho]

theorem fill_of_isObject (hname : p.type = some t) (hway : t ∉ way)
    (hfind : r.find? t = some d) (ho : d.isObject = true) :
    r.fill way p = (p.wrapped t (r.filledIn (way ++ [t]) d), r.circlesIn (way ++ [t]) d) := by
  simp [fill, hname, hway, expandFrom_of_isObject hfind ho]

end

/-- The kinds of properties within the object types `way`, with what becomes of each. -/
inductive Filled (r : Registry) (way : List String) (p : PropDef) : Prop
  | kept (hname : ∀ t, p.type = some t → r.find? t = none ∧ t ∉ way)
    (hfill : r.fill way p = (p, []))
  | circle (t : String) (hname : p.type = some t) (hway : t ∈ way)
    (hfill : r.fill way p = (p, [.circularAlias (way ++ [t])]))
  | plain (t : String) (d : TypeDef) (hname : p.type = some t) (hway : t ∉ way)
    (hfind : r.find? t = some d) (ho : d.isObject = false)
    (hfill : r.fill way p = (p.wrapped t d, []))
  | object (t : String) (d : TypeDef) (hname : p.type = some t) (hway : t ∉ way)
    (hfind : r.find? t = some d) (ho : d.isObject = true)
    (hfill : r.fill way p =
      (p.wrapped t (r.filledIn (way ++ [t]) d), r.circlesIn (way ++ [t]) d))

theorem fill_cases (r : Registry) (way : List String) (p : PropDef) : Filled r way p := by
  cases hname : p.type with
  | none => exact .kept (by simp [hname]) (fill_of_type_eq_none hname)
  | some t =>
    by_cases hway : t ∈ way
    · exact .circle t hname hway (fill_of_mem hname hway)
    cases hfind : r.find? t with
    | none =>
      refine .kept (fun u hu => ?_) (fill_of_find?_eq_none hname hway hfind)
      obtain rfl := Option.some.inj (hname.symm.trans hu)
      exact ⟨hfind, hway⟩
    | some d =>
      cases ho : d.isObject with
      | false =>
        exact .plain t d hname hway hfind ho (fill_of_not_isObject hname hway hfind ho)
      | true => exact .object t d hname hway hfind ho (fill_of_isObject hname hway hfind ho)

/-- An object type whose properties are of no registered type is filled in already. -/
theorem expand_of_unregistered (hd : r.find? name = some d)
    (ho : d.isObject = true) (hprops : ∀ e ∈ d.props, ∀ t ∈ e.2.type, r.find? t = none) :
    r.expand name = (some d, []) := by
  have hfill : ∀ e ∈ d.props, r.fill [name] e.2 = (e.2, []) := by
    intro e he
    rcases r.fill_cases [name] e.2 with ⟨_, hfill⟩ | ⟨t, ht, hway, _⟩ | ⟨t, _, ht, _, hf, _⟩ |
      ⟨t, _, ht, _, hf, _⟩
    · exact hfill
    · rw [List.mem_singleton.mp hway] at ht
      rw [hprops e he name ht] at hd
      cases hd
    · rw [hprops e he t ht] at hf
      cases hf
    · rw [hprops e he t ht] at hf
      cases hf
  rw [expand_of_isObject hd ho, filledIn, circlesIn,
    List.map_congr_left (g := id) fun e he => by rw [hfill e he]; rfl, List.map_id,
    List.flatMap_eq_nil_iff.mpr fun e he => by rw [hfill e he]]

/-- A property has what the properties of the object type that it names have one type further
down. -/
theorem fill_induction {P : List String → PropDef → Prop}
    (step : ∀ way p, (∀ t d, p.type = some t → t ∉ way → r.find? t = some d →
      d.isObject = true → ∀ e ∈ d.props, P (way ++ [t]) e.2) → P way p)
    (way : List String) (p : PropDef) : P way p :=
  step way p fun t d _ hway hfind _ e _ =>
    have := remaining_append_lt (mem_names_of_find? hfind) hway
    fill_induction step (way ++ [t]) e.2
termination_by r.remaining way

end Registry

end CallContract
