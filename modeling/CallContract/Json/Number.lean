import CallContract.Number.Shortest
import CallContract.Text.Integer

/-!
# JSON numbers

A number is an integer between -2^63 and 2^64 - 1 or a finite double, and the two kinds are
never equal: `1` and `1.0` are different numbers. A spelling without fraction and exponent is
an integer if it fits, and `-0` is a double. For all other spellings `Number.read?` takes the
digits that fit in 64 bits as a double and multiplies or divides it by a power of ten, so the
result can be a place off the nearest double; a result past the largest double is refused.
-/

namespace CallContract.Json

-- Powers of numbers are the built-in ones, whatever else is imported.
attribute [local instance (high)] instPowNat

/-- A JSON number. -/
inductive Number where
  | integer (value : Int)
  | double (value : Binary64)
deriving DecidableEq, Repr

namespace Number

/-- Continues the number `n` with digits as long as the result stays below 2^64: the number,
and how many digits were taken. -/
def absorb : Nat → List Char → Nat × Nat
  | n, [] => (n, 0)
  | n, c :: s =>
    let next := n * 10 + (c.toNat - 48)
    if next < 2 ^ (64 : Nat) then
      let (m, k) := absorb next s
      (m, k + 1)
    else (n, 0)

/-- The power of ten with a natural exponent, as a double. -/
def powerOfTen? (k : Nat) : Option Binary64 := Binary64.ofNat? (10 ^ k)

/-- Multiplies or divides `x` by a power of ten between 1 and 10^308, dividing by 10^308
first as often as needed. -/
def scale? (x : Binary64) (e : Int) : Option Binary64 :=
  if 0 ≤ e then
    if e ≤ 308 then do x.mul? (← powerOfTen? e.toNat)
    else if x.isZero then some x
    else none
  else if -308 ≤ e then do x.div? (← powerOfTen? (-e).toNat)
  else if x.isZero then some x
  else do
    let y ← x.div? (← powerOfTen? 308)
    scale? y (e + 308)
termination_by (-e).toNat
decreasing_by omega

/-- The double of the digits `n` scaled by `10 ^ e`, with a sign. -/
def double? (negative : Bool) (n : Nat) (e : Int) : Option Number := do
  let x ← scale? (← Binary64.ofNat? n) e
  some (.double { x with negative := negative })

/-- The number that a numeral spells, if it is not past the largest double. -/
def read? (n : Numeral) : Option Number :=
  let (whole, taken) := absorb 0 n.whole
  let dropped : Int := n.whole.length - taken
  let (digits, places) := absorb whole (n.fraction.getD [])
  match n.fraction, n.exponent with
  | none, none =>
    if dropped = 0 then
      if n.negative then
        if 0 < whole ∧ whole ≤ 2 ^ (63 : Nat) then some (.integer (-(whole : Int)))
        else double? true whole 0
      else some (.integer whole)
    else double? n.negative whole dropped
  | _, none => double? n.negative digits (dropped - places)
  | _, some (sign, ds) =>
    let e : Int := ((Text.natural? 10 ds).getD 0 : Nat)
    let e := if sign = some '-' then -e else e
    double? n.negative digits (dropped - places + e)

/-- How a number is written: an integer in decimal, a double with its shortest digits. -/
def numeral : Number → Numeral
  | .integer i => ⟨i < 0, Nat.toDigits 10 i.natAbs, none, none⟩
  | .double x => x.numeral

/-- Numerical equality within each kind. -/
def same : Number → Number → Bool
  | .integer i, .integer j => i == j
  | .double x, .double y => x.same y
  | _, _ => false

/-- The number as an integer with a sign and 64 bits or as one without a sign. -/
def toInt? : Number → Option Int
  | .integer i => some i
  | .double _ => none

/-- Whether the number is zero. -/
def isZero : Number → Bool
  | .integer i => i == 0
  | .double x => x.isZero

end Number

end CallContract.Json
