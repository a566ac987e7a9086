import CallContract.Doc.TypeExpr
import CallContract.Registry

/-!
# The registry as a JSON Schema

Every named type becomes an entry of `$defs`, in the 2020-12 draft of JSON Schema, and a type
expression that is a registered name becomes a reference to its entry. A type that is neither
registered nor known leaves the value unconstrained.
-/

namespace CallContract

open Json (Value Fields)

/-- A string as a JSON value. -/
def stringValue (s : List Char) : Value := .string (String.ofList s)

namespace TypeExpr

/-- The schema type of a basic type. -/
def primitive? (type : String) : Option String :=
  if type = "string" ∨ type = "String" then some "string"
  else if type = "number" ∨ type = "Number" then some "number"
  else if type = "bigint" ∨ type = "integer" then some "integer"
  else if type = "boolean" ∨ type = "Boolean" then some "boolean"
  else if type = "null" then some "null"
  else if type = "Object" ∨ type = "object" then some "object"
  else if type = "Array" ∨ type = "array" then some "array"
  else none

/-- The schema of a reference to a named type. -/
def reference (name : String) : Fields := [("$ref", .string ("#/$defs/" ++ name))]

/-- The schema that states a type and nothing else. -/
def typeOnly (name : String) : Fields := [("type", .string name)]

/-- The keyword for the element type of a composite. -/
def elementKeyword : Shape → String
  | .object => "additionalProperties"
  | _ => "items"

/-- The schema type of a composite. -/
def shapeName : Shape → String
  | .object => "object"
  | _ => "array"

theorem length_lt_of_mem_members {s m : List Char} (hs : s.contains '|' = true)
    (hm : m ∈ members s) : m.length < s.length := by
  obtain ⟨p, hp, rfl⟩ := List.mem_map.mp hm
  have := Text.length_trim_le p
  have := Text.length_lt_of_mem_pieces (List.contains_iff_mem.mp hs) hp
  omega

/-- The schema of a type expression without blanks around it. -/
def schemaOf (r : Registry) (s : List Char) : Fields :=
  if r.contains (String.ofList s) then reference (String.ofList s)
  else
    match primitive? (String.ofList s) with
    | some name => typeOnly name
    | none =>
      match hc : composite? s with
      | some (shape, element) =>
        have := length_of_composite? hc
        Fields.insert (typeOnly (shapeName shape)) (elementKeyword shape)
          (.object (schemaOf r element))
      | none =>
        match literals? s with
        | some (_, values) => [("enum", .array values)]
        | none =>
          if hs : s.contains '|' then
            [("anyOf", .array ((members s).attach.map fun m =>
              have := length_lt_of_mem_members hs m.2
              .object (schemaOf r m.1)))]
          else []
termination_by s.length

/-- The schema of a type expression. -/
def schema (r : Registry) (type : String) : Fields := schemaOf r (Text.trim type.toList)

end TypeExpr

/-- Adds the description of a schema. -/
def withDescription (description : Option String) (fs : Fields) : Fields :=
  match description with
  | none => fs
  | some d => fs.insert "description" (.string d)

/-- Adds the bounds of a schema under their keywords. -/
def withBounds (b : Bounds) (fs : Fields) : Fields :=
  fs.extend (b.entries.map fun e => (e.1, .number (.integer e.2)))

/-- The schema of a property. -/
def PropDef.schema (r : Registry) (p : PropDef) : Value :=
  let base := match p.type with
    | none => []
    | some t => TypeExpr.schema r t
  let described := withDescription p.description base
  let defaulted := match p.default with
    | none => described
    | some v => described.insert "default" v
  .object (withBounds p.bounds defaulted)

namespace TypeDef

/-- The schema of an object with some properties. -/
def objectSchema (r : Registry) (props : List (String × PropDef)) : Fields :=
  let required := props.filter fun e => !e.2.isOptional
  let properties : Fields := if props.isEmpty then [] else
    [("properties", .object (Fields.ofList (props.map fun e => (e.1, e.2.schema r))))]
  let needed : Fields := if required.isEmpty then [] else
    [("required", .array (required.map fun e => .string e.1))]
  properties ++ needed ++ TypeExpr.typeOnly "object"

/-- The schema of a named type. -/
def schema (r : Registry) (d : TypeDef) : Value :=
  let base := if d.isObject then objectSchema r d.props else TypeExpr.schema r d.base
  .object (withBounds d.bounds (withDescription d.description base))

end TypeDef

namespace Registry

/-- The draft of JSON Schema that is written. -/
def schemaDraft : String := "https://json-schema.org/draft/2020-12/schema"

/-- The schema document of a registry. -/
def schema (r : Registry) : Value :=
  .object [("$defs", .object (Fields.ofList (r.defs.map fun d => (d.name, d.schema r)))),
    ("$schema", .string schemaDraft)]

/-- The text of the schema document. -/
def schemaText (r : Registry) (indented : Bool) : String := r.schema.node.text indented

end Registry

end CallContract
