import CallContract.Address
import CallContract.Coercion

/-!
# Call arguments

Option values are put where the paths of the options lead in the list of call arguments
(`Placement.map`), and read back from there (`Placement.flatten`). Positions without a value
are filled with null, and objects on the way to a property are made whether or not the option
has a value.
-/

namespace CallContract

open Json (Value Fields)

/-- Why no call arguments can be made: a required option without a value, a value that is not
of its type, or a path without a position or through a value that is no object. -/
inductive ArgumentError where
  | missingRequired (option : String)
  | typeMismatch (option : String) (expected : NumericType) (value : Value)
  | noPosition (path : ArgPath)
  | throughValue (path : ArgPath) (key : String)

namespace ArgumentError

/-- A value as it is shown in a message: a string without quotes. -/
def shown : Value → String
  | .string s => s
  | v => v.compact

/-- The wording of an error. -/
def message : ArgumentError → String
  | missingRequired option => "missing required parameter: " ++ option
  | typeMismatch option expected value =>
    "type mismatch for parameter '" ++ option ++ "': expected " ++ expected.name ++ ", got '" ++
      shown value ++ "'"
  | noPosition path =>
    "path error: path '" ++ path.text ++ "' does not start with a position"
  | throughValue path key =>
    "path error: path '" ++ path.text ++ "' crosses a non-object value before '" ++ key ++ "'"

end ArgumentError

/-- Call arguments by position. -/
abbrev Arguments := List Value

namespace Arguments

/-- The argument at a position; what is not there counts as null. -/
def valueAt (args : Arguments) (i : Nat) : Value := args.getD i Value.null

/-- Sets the argument at a position, with null at positions in front that are not there. -/
def put (args : Arguments) (i : Nat) (v : Value) : Arguments :=
  (args ++ List.replicate (i + 1 - args.length) Value.null).set i v

end Arguments

namespace Placement

/-- Puts a value, if there is one, below a value where keys lead; the last key is apart. The
error is the key at which there is no object. -/
def putBelow (value : Option Value) (last : String) :
    List String → Value → Except String Value
  | [], .object fs =>
    match value with
    | none => .ok (.object fs)
    | some v => .ok (.object (Fields.insert fs last v))
  | [], _ => .error last
  | k :: ks, .object fs =>
    match putBelow value last ks ((Fields.find? fs k).getD (.object [])) with
    | .error e => .error e
    | .ok v => .ok (.object (Fields.insert fs k v))
  | k :: _, _ => .error k

/-- A value that is an object, or an empty object in its place. -/
def asObject : Value → Value
  | .object fs => .object fs
  | _ => .object []

/-- Puts a value, if there is one, at an address. The error is the key at which there is no
object. -/
def put (args : Arguments) (a : Address) (value : Option Value) : Except String Arguments :=
  match a.keys.getLast? with
  | none =>
    match value with
    | none => .ok args
    | some v => .ok (args.put a.position v)
  | some last =>
    match putBelow value last a.keys.dropLast (asObject (args.valueAt a.position)) with
    | .error e => .error e
    | .ok v => .ok (args.put a.position v)

/-- Whether a value does not count for a required option. -/
def isFalsy : Value → Bool
  | .null => true
  | .bool b => !b
  | .number n => n.isZero
  | .string s => s.isEmpty
  | .array _ => false
  | .object _ => false

/-- The value given for an option; null is none. -/
def given? (values : Fields) (option : String) : Option Value :=
  match Fields.find? values option with
  | none => none
  | some .null => none
  | some v => some v

/-- The value of an option as its type has it. -/
def coerced (option : String) (p : Parameter) (value : Option Value) :
    Except ArgumentError (Option Value) :=
  match value, p.numericType? with
  | some v, some t =>
    match Coercion.numeric t v with
    | .ok w => .ok (some w)
    | .error e => .error (.typeMismatch option t e)
  | v, _ => .ok v

/-- Puts the value of one option. -/
def mapOne (values : Fields) (args : Arguments) (option : String) (p : Parameter) :
    Except ArgumentError Arguments :=
  let value := given? values option
  if p.mayBeAbsent = false ∧ value.all isFalsy then .error (.missingRequired option)
  else
    match coerced option p value with
    | .error e => .error e
    | .ok v =>
      match p.path.address? with
      | none => .error (.noPosition p.path)
      | some a =>
        match put args a v with
        | .error key => .error (.throughValue p.path key)
        | .ok args => .ok args

/-- Puts the values of options, in their order, into call arguments. -/
def mapOnto (values : Fields) (args : Arguments) : Variables → Except ArgumentError Arguments
  | [] => .ok args
  | (option, p) :: rest =>
    match mapOne values args option p with
    | .error e => .error e
    | .ok args => mapOnto values args rest

/-- The call arguments for option values. -/
def map (placement : Variables) (values : Fields) : Except ArgumentError Arguments :=
  mapOnto values [] placement

/-- The value below a value where keys lead. -/
def below? : List String → Value → Option Value
  | [], v => some v
  | k :: ks, .object fs => (Fields.find? fs k).bind (below? ks)
  | _ :: _, _ => none

/-- The value at an address. -/
def read? (args : Arguments) (a : Address) : Option Value :=
  (args[a.position]?).bind (below? a.keys)

/-- The value of an option in call arguments; null is none. -/
def readOption? (args : Arguments) (p : Parameter) : Option Value :=
  match p.path.address?.bind (read? args) with
  | none => none
  | some .null => none
  | some v => some v

/-- The option values that call arguments hold. -/
def flatten (placement : Variables) (args : Arguments) : Fields :=
  Fields.ofList (placement.filterMap fun e => (readOption? args e.2).map fun v => (e.1, v))

end Placement

end CallContract
