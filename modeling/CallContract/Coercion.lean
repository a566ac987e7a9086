import CallContract.Json.Reader
import CallContract.Parameter
import CallContract.Source.NumberLiteral
import CallContract.Text.Blank
import CallContract.Text.DecimalDigit

/-!
# Coercion of option values

An option of a numeric type takes its value from a text: a number from the decimal numeral that
the text starts with, whatever follows, and a big integer from a text that is an integer as a
whole. Arrays are coerced item by item; values of other types stay as they are.
-/

namespace CallContract

-- Powers of numbers are the built-in ones, whatever else is imported.
attribute [local instance (high)] instPowNat

open Json (Value)

/-- The types to which values are coerced. -/
inductive NumericType where
  | number
  | bigint
deriving DecidableEq, Repr

namespace NumericType

/-- How a numeric type is spelled. -/
def name : NumericType → String
  | number => "number"
  | bigint => "bigint"

/-- The numeric type with a spelling. -/
def ofName? (type : String) : Option NumericType :=
  [number, bigint].find? fun t => t.name == type

end NumericType

namespace Coercion

open Text

/-- The sign that a text starts with, and the rest. -/
def signPart : List Char → List Char × List Char
  | '+' :: s => (['+'], s)
  | '-' :: s => (['-'], s)
  | s => ([], s)

/-- The digits that a text starts with, and the rest. -/
def digitPart (s : List Char) : List Char × List Char :=
  (s.takeWhile isDecimalDigit, s.dropWhile isDecimalDigit)

/-- The digits that a text starts with, with a point among them or not; a point alone is no
number. -/
def mantissa? (s : List Char) : Option (List Char × List Char) :=
  let (whole, rest) := digitPart s
  match rest with
  | '.' :: rest' =>
    let (fraction, rest'') := digitPart rest'
    if whole.isEmpty && fraction.isEmpty then none
    else some (whole ++ '.' :: fraction, rest'')
  | _ => if whole.isEmpty then none else some (whole, rest)

/-- The exponent that a text starts with; nothing if its digits are missing. -/
def exponentPart : List Char → List Char
  | [] => []
  | c :: s =>
    if c = 'e' ∨ c = 'E' then
      let (sign, rest) := signPart s
      let digits := (digitPart rest).1
      if digits.isEmpty then [] else c :: (sign ++ digits)
    else []

/-- The decimal numeral that a text starts with, blanks in front apart. -/
def numeralStart? (s : List Char) : Option (List Char) :=
  let (sign, rest) := signPart (trimStart s)
  (mantissa? rest).map fun m => sign ++ m.1 ++ exponentPart m.2

/-- The integer that a text spells, with an `n` at its end or not: one of 64 bits, with a sign
or without. -/
def integer? (s : List Char) : Option Int :=
  let t := trim s
  let digits := (beforeEnd? ['n'] t).getD t
  (signed? 10 digits).orElse fun _ => (unsigned? 10 (2 ^ (64 : Nat)) digits).map Int.ofNat

/-- A value other than an array as a value of a numeric type. -/
def scalar? : NumericType → Value → Option Value
  | .number, .number n => some (.number n)
  | .number, .string s =>
    ((numeralStart? s.toList).bind fun t => Source.numberLiteral? t false).map .number
  | .bigint, .number n => n.toInt?.map fun i => .number (.integer i)
  | .bigint, .string s => (integer? s.toList).map fun i => .number (.integer i)
  | _, _ => none

mutual

/-- A value as a value of a numeric type, item by item; or the part that cannot be one. -/
def numeric (t : NumericType) : Value → Except Value Value
  | .array items => (numericItems t items).map .array
  | v =>
    match scalar? t v with
    | some w => .ok w
    | none => .error v

/-- Items as values of a numeric type. -/
def numericItems (t : NumericType) : List Value → Except Value (List Value)
  | [] => .ok []
  | v :: vs =>
    match numeric t v with
    | .error e => .error e
    | .ok w =>
      match numericItems t vs with
      | .error e => .error e
      | .ok ws => .ok (w :: ws)

end

end Coercion

/-- The type that the values of a parameter are coerced to: that of its items if it is an
array, and its own if not. -/
def Parameter.numericType? (p : Parameter) : Option NumericType :=
  let type := if p.shape = some .array then p.element.orElse fun _ => p.type else p.type
  type.bind NumericType.ofName?

end CallContract
