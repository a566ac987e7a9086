import CallContract.TypeDef

/-!
# The registry of named types

Named types in the order in which their names first came up. A later definition takes the
place of an earlier one of its name, so no two definitions have one name (`nodup`).
-/

namespace CallContract

/-- The names of definitions. -/
def TypeDef.names (ds : List TypeDef) : List String := ds.map TypeDef.name

/-- Definitions with `d` in the place of the one of its name, or at the end. -/
def TypeDef.put : List TypeDef → TypeDef → List TypeDef
  | [], d => [d]
  | e :: ds, d => if e.name = d.name then d :: ds else e :: put ds d

theorem TypeDef.names_cons (d : TypeDef) (ds : List TypeDef) :
    names (d :: ds) = d.name :: names ds := rfl

/-- Putting a definition changes no names, or adds its own at the end. -/
theorem TypeDef.names_put (ds : List TypeDef) (d : TypeDef) :
    names (put ds d) = if d.name ∈ names ds then names ds else names ds ++ [d.name] := by
  induction ds with
  | nil => simp [put, names]
  | cons e ds ih =>
    by_cases h : e.name = d.name
    · simp [put, names_cons, h]
    · rw [put, if_neg h, names_cons, names_cons, ih]
      by_cases hm : d.name ∈ names ds
      · rw [if_pos hm, if_pos (List.mem_cons_of_mem _ hm)]
      · rw [if_neg hm, if_neg (by simp [hm, Ne.symm h]), List.cons_append]

/-- Named types, each name once. -/
structure Registry where
  defs : List TypeDef
  nodup : (TypeDef.names defs).Nodup

namespace Registry

/-- The registry without types. -/
def empty : Registry := ⟨[], List.nodup_nil⟩

/-- The names, in order. -/
def names (r : Registry) : List String := TypeDef.names r.defs

/-- Records a definition under its name. -/
def register (r : Registry) (d : TypeDef) : Registry :=
  ⟨TypeDef.put r.defs d, by
    rw [TypeDef.names_put]
    split
    · exact r.nodup
    · rename_i h
      rw [List.nodup_append]
      refine ⟨r.nodup, by simp, fun a ha b hb => ?_⟩
      rw [List.mem_singleton.mp hb]
      exact fun e => h (e ▸ ha)⟩

/-- Records all definitions of a list in turn. -/
def registerAll (r : Registry) (ds : List TypeDef) : Registry := ds.foldl register r

/-- Records all definitions of another registry, in its order. -/
def extend (r s : Registry) : Registry := r.registerAll s.defs

/-- The definition of a name. -/
def find? (r : Registry) (name : String) : Option TypeDef := r.defs.find? (·.name == name)

/-- Whether a name is defined. -/
def contains (r : Registry) (name : String) : Bool := (r.find? name).isSome

theorem name_of_find? {r : Registry} {name : String} {d : TypeDef} (h : r.find? name = some d) :
    d.name = name := by
  have := List.find?_some h
  simpa using this

theorem mem_of_find? {r : Registry} {name : String} {d : TypeDef} (h : r.find? name = some d) :
    d ∈ r.defs :=
  List.mem_of_find?_eq_some h

/-- What is found is among the names. -/
theorem mem_names_of_find? {r : Registry} {name : String} {d : TypeDef}
    (h : r.find? name = some d) : name ∈ r.names :=
  List.mem_map.mpr ⟨d, mem_of_find? h, name_of_find? h⟩

end Registry

end CallContract
