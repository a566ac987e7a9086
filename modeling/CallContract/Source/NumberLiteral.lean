import CallContract.Json.Number
import CallContract.Text.Split

/-!
# Number literals

The value of a number literal of the source language: decimal with an optional fraction and
exponent, or hexadecimal, octal or binary; underscores are ignored and a final `n` is dropped.
Every literal is first rounded to a double. One without a fraction and below 2^63 becomes an
integer, so a zero loses its sign and a large integer its last digits.
-/

namespace CallContract.Source

-- Powers of numbers are the built-in ones, whatever else is imported.
attribute [local instance (high)] instPowNat

open CallContract.Json (Number)

/-- The double nearest to a decimal: an optional sign, digits with an optional point, of which
at least one is needed, and an optional exponent. -/
def decimalDouble? (s : List Char) : Option Binary64 := do
  let (sign, s) := Numeral.signPart s
  let whole := s.takeWhile Char.isDigit
  let s := s.dropWhile Char.isDigit
  let (fraction, s) := match s with
    | '.' :: r => (r.takeWhile Char.isDigit, r.dropWhile Char.isDigit)
    | _ => ([], s)
  let digits ← Text.natural? 10 (whole ++ fraction)
  let (exponent, s) ← Numeral.exponentPart s
  let e : Int := match exponent with
    | none => 0
    | some (sign, ds) =>
      let e : Int := ((Text.natural? 10 ds).getD 0 : Nat)
      if sign = some '-' then -e else e
  if s.isEmpty then Binary64.ofDecimal? (sign = some '-') digits (e - fraction.length) else none

/-- The radix that a literal announces, and its digits. -/
def radixDigits? : List Char → Option (Nat × List Char)
  | '0' :: 'x' :: s => some (16, s)
  | '0' :: 'o' :: s => some (8, s)
  | '0' :: 'b' :: s => some (2, s)
  | _ => none

/-- A double as a number: an integer if it has no fraction and is below 2^63. -/
def numberOfDouble (x : Binary64) : Number :=
  match x.toInt? with
  | some i => if i.natAbs < 2 ^ (63 : Nat) then .integer i else .double x
  | none => .double x

/-- The double that a literal spells. -/
def literalDouble? (spelling : List Char) : Option Binary64 :=
  let s := spelling.filter (· ≠ '_')
  let s := ((Text.beforeEnd? ['n'] s).getD s).map Char.toLower
  match radixDigits? s with
  | some (radix, ds) =>
    (Text.signed? radix ds).bind fun i => Binary64.ofRatio? (i < 0) i.natAbs 1
  | none => decimalDouble? s

/-- The number that a literal, behind a minus sign or not, stands for. -/
def numberLiteral? (spelling : List Char) (negative : Bool) : Option Number :=
  (literalDouble? spelling).map fun x => numberOfDouble (if negative then x.neg else x)

example : numberLiteral? "1_000n".toList true = some (.integer (-1000)) := by decide +kernel
example : numberLiteral? "0".toList true = some (.integer 0) := by decide +kernel

end CallContract.Source
