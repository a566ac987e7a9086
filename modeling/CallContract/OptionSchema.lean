import CallContract.Extraction

/-!
# Options of a contract

The variables of a contract as command-line options. A variable without a type is no option; a
boolean one is a flag, and an array may be given more than once.
-/

namespace CallContract

/-- What an option takes: a text, or whether it is set. -/
inductive OptionKind where
  | string
  | boolean
deriving DecidableEq, Repr

/-- An option. -/
structure OptionSpec where
  kind : OptionKind
  multiple : Bool
  short : Option String := none
  default : Option Json.Value := none
  description : Option String := none

/-- The options of a contract, and where their values go in a call. -/
structure OptionSchema where
  options : Table String OptionSpec
  placement : Variables

/-- The type of a parameter's value, or of its parts if it is a composite of known parts. -/
def Parameter.partType (p : Parameter) (type : String) : String :=
  match p.shape, p.element with
  | some _, some e => e
  | _, _ => type

namespace OptionSpec

/-- The option of a variable that has a type. A name of a single character is a short name. -/
def ofParameter (p : Parameter) (type : String) : OptionSpec :=
  { kind := if p.partType type = "boolean" then .boolean else .string
    multiple := p.shape = some .array
    short := p.otherName.filter fun a => a.length = 1
    default := p.default
    description := p.description }

end OptionSpec

namespace OptionSchema

/-- The options of a contract. -/
def ofContract (c : Contract) : OptionSchema :=
  { options := c.vars.filterMap fun e => e.2.type.map fun t => (e.1, .ofParameter e.2 t)
    placement := c.vars.filter fun e => e.2.type.isSome }

/-- The first option with a short name, by its full name. -/
def named? (s : OptionSchema) (short : String) : Option String :=
  (List.find? (fun e => e.2.short == some short) s.options).map Prod.fst

end OptionSchema

end CallContract
