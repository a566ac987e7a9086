import CallContract.ArgPath
import CallContract.Json.Value
import CallContract.Table

/-!
# Parameters

One row of a contract: a variable that a function binds, or a parameter that a comment
documents, with its place in the call arguments and what is known about it.
-/

namespace CallContract

/-- What a composite type is made of. -/
inductive Shape where
  | array
  | object
  | enum
deriving DecidableEq, Repr

/-- A row of a contract. `element` is the type of the items or the values of a composite;
`otherName` is a second name of the variable, or the one it falls back on. -/
structure Parameter where
  name : String
  path : ArgPath
  otherName : Option String := none
  default : Option Json.Value := none
  description : Option String := none
  type : Option String := none
  isOptional : Option Bool := none
  shape : Option Shape := none
  element : Option String := none
  isRest : Bool := false

/-- Variables by name. -/
abbrev Variables := Table String Parameter

namespace Parameter

/-- Whether a call may leave the parameter out. -/
def mayBeAbsent (p : Parameter) : Bool := p.isOptional.getD false

/-- Gives a parameter the shape and the element type of a composite, if there is one. -/
def withComposite (p : Parameter) : Option (Shape × String) → Parameter
  | none => p
  | some (s, e) => { p with shape := some s, element := some e }

end Parameter

end CallContract
