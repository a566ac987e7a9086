import CallContract.OptionSchema
import CallContract.Stored.Record

/-!
# Stored options

The stored form of an option, and the JSON value of all options of a contract with the paths
that their values take.
-/

namespace CallContract

open Json (Node Value Fields)

/-- The name of a kind of option. -/
def OptionKind.name : OptionKind → String
  | string => "string"
  | boolean => "boolean"

/-- All kinds of options. -/
def OptionKind.all : List OptionKind := [string, boolean]

namespace OptionSpec

/-- The fields of an option, in the order in which they are stored. -/
def fields (o : OptionSpec) : List (String × Value) :=
  [("type", .string o.kind.name), ("multiple", .bool o.multiple)] ++
    (o.short.map fun s => ("short", Value.string s)).toList ++
    (o.default.map fun v => ("default", v)).toList ++
    (o.description.map fun s => ("description", Value.string s)).toList

/-- The stored form of an option. -/
def node (o : OptionSpec) : Node := Stored.table Value.node o.fields

/-- Reads a stored option. -/
def ofNode? (depth : Nat) (n : Node) : Option OptionSpec := do
  let ps ← Stored.parts? ["type", "multiple", "short", "default", "description"] depth n
  let inner := depth - 1
  some
    { kind := ← ps.required? "type" (Stored.oneOf? OptionKind.all OptionKind.name inner)
      multiple := ← ps.required? "multiple" Stored.bool?
      short := ← ps.optional? "short" Stored.string?
      default := ← ps.optional? "default" (Value.ofNode? inner)
      description := ← ps.optional? "description" Stored.string? }

/-- The JSON value of an option. -/
def value (o : OptionSpec) : Value := .object (Fields.ofList o.fields)

end OptionSpec

/-- The JSON value of the options of a contract and of the paths of their values. -/
def OptionSchema.value (s : OptionSchema) : Value :=
  .object
    [("options", .object (Fields.ofList (s.options.map fun e => (e.1, e.2.value)))),
      ("placement",
        .object (Fields.ofList (s.placement.map fun e => (e.1, .string e.2.path.text))))]

end CallContract
