import CallContract.Parameter
import CallContract.Stored.Record

/-!
# Stored parameters

The stored form of a parameter.
-/

namespace CallContract

open Stored
open Json (Node Value)

/-- The name of a shape. -/
def Shape.name : Shape → String
  | array => "array"
  | object => "object"
  | enum => "enum"

/-- All shapes. -/
def Shape.all : List Shape := [array, object, enum]

namespace Parameter

/-- The stored form of a parameter. -/
def node (p : Parameter) : Node :=
  .object (entry "name" (string p.name) ++
    entry "path" (string p.path.text) ++
    entry? "alias" string p.otherName ++
    entry? "default" Value.node p.default ++
    entry? "description" string p.description ++
    entry? "type" string p.type ++
    entry? "isOptional" Node.bool p.isOptional ++
    entry? "structure" (fun s => string s.name) p.shape ++
    entry? "contains" string p.element ++
    if p.isRest then entry "rest" (.bool true) else [])

/-- The names of the parts of a parameter. -/
def partNames : List String :=
  ["name", "path", "alias", "default", "description", "type", "isOptional", "structure",
    "contains", "rest"]

/-- Reads a stored parameter. -/
def ofNode? (depth : Nat) (n : Node) : Option Parameter := do
  let ps ← parts? partNames depth n
  let inner := depth - 1
  some
    { name := ← ps.required? "name" string?
      path := ⟨← ps.required? "path" string?⟩
      otherName := ← ps.optional? "alias" string?
      default := ← ps.optional? "default" (Value.ofNode? inner)
      description := ← ps.optional? "description" string?
      type := ← ps.optional? "type" string?
      isOptional := ← ps.optional? "isOptional" bool?
      shape := ← ps.optional? "structure" (oneOf? Shape.all Shape.name inner)
      element := ← ps.optional? "contains" string?
      isRest := ← ps.orElse? "rest" false bool? }

end Parameter

end CallContract
