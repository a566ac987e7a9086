import CallContract.Json.Value

/-!
# Named types

A comment can give a type a name. An object type has properties; every type can have bounds,
which speak of its length, its value, its items or its properties as the type has them.
-/

namespace CallContract

/-- Least and greatest measures of a value. -/
structure Bounds where
  minLength : Option Nat := none
  maxLength : Option Nat := none
  minimum : Option Nat := none
  maximum : Option Nat := none
  minItems : Option Nat := none
  maxItems : Option Nat := none
  minProperties : Option Nat := none
  maxProperties : Option Nat := none
deriving DecidableEq, Repr

namespace Bounds

/-- The bounds that are set, under their keywords. -/
def entries (b : Bounds) : List (String × Nat) :=
  [("minLength", b.minLength), ("maxLength", b.maxLength), ("minimum", b.minimum),
    ("maximum", b.maximum), ("minItems", b.minItems), ("maxItems", b.maxItems),
    ("minProperties", b.minProperties), ("maxProperties", b.maxProperties)].filterMap
      fun e => e.2.map fun n => (e.1, n)

/-- Whether no bound is set. -/
def isEmpty (b : Bounds) : Bool := b == {}

end Bounds

/-- A property of an object type. A property whose named type was filled in has the
properties and the bounds of that type, and its name in `wrapType`. -/
structure PropDef where
  name : String
  type : Option String := none
  description : Option String := none
  default : Option Json.Value := none
  isOptional : Bool := false
  wrapType : Option String := none
  props : List (String × PropDef) := []
  bounds : Bounds := {}
deriving Inhabited

/-- A named type: its base, its properties in order, its bounds. -/
structure TypeDef where
  name : String
  description : Option String := none
  base : String
  props : List (String × PropDef) := []
  bounds : Bounds := {}

/-- The base of a type that states none. -/
def objectBase : String := "Object"

/-- Whether a named type is an object type. -/
def TypeDef.isObject (d : TypeDef) : Bool := d.base == objectBase

end CallContract
