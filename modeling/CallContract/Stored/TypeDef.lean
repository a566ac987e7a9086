import CallContract.Stored.Record
import CallContract.TypeDef

/-!
# Stored types

The stored forms of bounds, properties and named types. The bounds of a property or a type are
written among its own fields, at the end; such a record is read from an object only, and its
bounds from the fields that are no parts of it.
-/

namespace CallContract

open Stored
open Json (Node Value)

namespace Bounds

/-- The fields of bounds. -/
def storedEntries (b : Bounds) : List Entry := b.entries.flatMap fun e => entry e.1 (nat e.2)

/-- The stored form of bounds. -/
def node (b : Bounds) : Node := .object b.storedEntries

/-- The names of bounds. -/
def partNames : List String :=
  ["minLength", "maxLength", "minimum", "maximum", "minItems", "maxItems", "minProperties",
    "maxProperties"]

/-- The bounds of which a reader gives each by its name. -/
def ofReader? (read : String → Option (Option Nat)) : Option Bounds := do
  some
    { minLength := ← read "minLength"
      maxLength := ← read "maxLength"
      minimum := ← read "minimum"
      maximum := ← read "maximum"
      minItems := ← read "minItems"
      maxItems := ← read "maxItems"
      minProperties := ← read "minProperties"
      maxProperties := ← read "maxProperties" }

/-- Reads stored bounds. -/
def ofNode? (depth : Nat) (n : Node) : Option Bounds := do
  let ps ← parts? partNames depth n
  ofReader? fun name => ps.optional? name nat?

/-- The bound with a name among fields, where it may stand once. -/
def among? (fields : List (String × Value)) (name : String) : Option (Option Nat) :=
  match fields.filter fun e => e.1 == name with
  | [] => some none
  | [(_, .null)] => some none
  | [(_, v)] => (natOf? v).map some
  | _ => none

/-- The bounds among the fields of a record. -/
def ofFields? (fields : List (String × Value)) : Option Bounds := ofReader? (among? fields)

end Bounds

mutual

/-- The stored form of a property. -/
def PropDef.node : PropDef → Node
  | ⟨name, type, description, default, isOptional, wrapType, props, bounds⟩ =>
    .object (entry "name" (string name) ++
      entry? "type" string type ++
      entry? "description" string description ++
      entry? "default" Value.node default ++
      entry "isOptional" (.bool isOptional) ++
      entry? "wrapType" string wrapType ++
      (if props.isEmpty then [] else entry "props" (.object (propFields props))) ++
      bounds.storedEntries)

/-- The fields of properties. -/
def propFields : List (String × PropDef) → List Entry
  | [] => []
  | (k, p) :: ps => (Json.escape k.toList, p.node) :: propFields ps

end

namespace PropDef

/-- The names of the parts of a property. -/
def partNames : List String :=
  ["name", "type", "description", "default", "isOptional", "wrapType", "props"]

/-- Reads a stored property. -/
def ofNode? (depth : Nat) (n : Node) : Option PropDef :=
  if depth = 0 then none
  else do
    let (ps, others) ← openParts? partNames depth n
    let nested : Node → Option (List (String × PropDef)) := fun n =>
      if depth = 1 then none
      else
        match n with
        | .object fs =>
          (fields? (fun m => PropDef.ofNode? (depth - 2) m) fs).map fun l => Table.ofList l
        | _ => none
    some
      { name := ← ps.required? "name" string?
        type := ← ps.optional? "type" string?
        description := ← ps.optional? "description" string?
        default := ← ps.optional? "default" (Value.ofNode? (depth - 1))
        isOptional := ← ps.orElse? "isOptional" false bool?
        wrapType := ← ps.optional? "wrapType" string?
        props := ← ps.orElse? "props" [] nested
        bounds := ← Bounds.ofFields? others }
termination_by depth

end PropDef

namespace TypeDef

/-- The stored form of a named type. -/
def node (d : TypeDef) : Node :=
  .object (entry "name" (string d.name) ++
    entry? "description" string d.description ++
    entry "type" (string d.base) ++
    (if d.props.isEmpty then [] else entry "props" (table PropDef.node d.props)) ++
    d.bounds.storedEntries)

/-- Reads a stored type. -/
def ofNode? (depth : Nat) (n : Node) : Option TypeDef := do
  let (ps, others) ← openParts? ["name", "description", "type", "props"] depth n
  some
    { name := ← ps.required? "name" string?
      description := ← ps.optional? "description" string?
      base := ← ps.required? "type" string?
      props := ← ps.orElse? "props" [] (table? PropDef.ofNode? (depth - 1))
      bounds := ← Bounds.ofFields? others }

end TypeDef

end CallContract
