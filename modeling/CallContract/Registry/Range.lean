import CallContract.Text.Blank
import CallContract.Text.DecimalDigit
import CallContract.Text.Integer
import CallContract.Text.Split
import CallContract.TypeDef

/-!
# Ranges

The range in a comment on a named type: one number, which is the least and the greatest
measure, or two numbers with one character between them, each of which may be left out. The
base of the type says what is measured.
-/

namespace CallContract

-- Powers of numbers are the built-in ones, whatever else is imported.
attribute [local instance (high)] instPowNat

/-- A least and a greatest measure. -/
structure Range where
  least : Option Nat
  greatest : Option Nat
deriving DecidableEq, Repr

namespace Range

open Text

/-- A number in ASCII digits that fits in 64 bits. -/
def limit? (s : List Char) : Option Nat := (natural? 10 s).filter (· < 2 ^ (64 : Nat))

/-- Two numbers with one character between them that is a digit of no script. A number in
digits other than ASCII counts as left out. -/
def span? (s : List Char) : Option Range :=
  match s.dropWhile isDecimalDigit with
  | [] => none
  | _ :: rest =>
    if rest.all isDecimalDigit then some ⟨limit? (s.takeWhile isDecimalDigit), limit? rest⟩
    else none

/-- One number, for both measures. -/
def single? (s : List Char) : Option Range := (limit? s).map fun n => ⟨some n, some n⟩

/-- The range that a text spells. -/
def read? (text : String) : Option Range :=
  let s := trim text.toList
  (span? s).orElse fun _ => single? s

example : read? "10-100" = some ⟨some 10, some 100⟩ := by cbv
example : read? " 6 " = some ⟨some 6, some 6⟩ := by cbv
example : read? "..5" = none := by cbv

end Range

/-- Whether items of a base type are counted. -/
def isArrayBase (base : List Char) : Bool :=
  Text.startsWith ['A', 'r', 'r', 'a', 'y'] base || Text.endsWith ['[', ']'] base

/-- Whether properties of a base type are counted. -/
def isObjectBase (base : List Char) : Bool :=
  Text.startsWith ['O', 'b', 'j', 'e', 'c', 't'] base || Text.endsWith ['\x7b', '\x7d'] base

/-- The bounds that a range sets on a base type. -/
def Bounds.ofRange (base : String) (r : Range) : Bounds :=
  if base = "string" then { minLength := r.least, maxLength := r.greatest }
  else if base = "number" then { minimum := r.least, maximum := r.greatest }
  else if isArrayBase base.toList then { minItems := r.least, maxItems := r.greatest }
  else if isObjectBase base.toList then
    { minProperties := r.least, maxProperties := r.greatest }
  else {}

/-- A named type with the bounds of a range, if a range can be read. -/
def TypeDef.ofParts (name : String) (base : Option String) (props : List (String × PropDef))
    (range : Option String) (description : Option String) : TypeDef :=
  let base := base.getD objectBase
  { name, description, base, props
    bounds := ((range.bind Range.read?).map (Bounds.ofRange base)).getD {} }

end CallContract
