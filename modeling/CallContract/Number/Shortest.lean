import CallContract.Number.Binary64
import CallContract.Number.Numeral

/-!
# The shortest decimal of a double

Among the decimals that read back to a double, `Binary64.shortest` has the fewest digits and
is the nearest of those, the even one of two equally near. A decimal reads back when it lies
between the midpoints to the two neighbouring doubles, midpoints included when the
significand is even (`Binary64.readsBack`). `Binary64.numeral` lays the digits out: positionally
from 1e-5 up to below 1e16, otherwise with a signed exponent.
-/

namespace CallContract

-- Powers of numbers are the built-in ones, whatever else is imported.
attribute [local instance (high)] instPowNat

/-- The decimal `digits · 10 ^ exponent`. -/
structure Decimal where
  digits : Nat
  exponent : Int
deriving DecidableEq, Repr

namespace Decimal

/-- Compares the decimal with `b · 2 ^ e`. -/
def compareBinary (d : Decimal) (b : Nat) (e : Int) : Ordering :=
  compare (d.digits * 10 ^ d.exponent.toNat * 2 ^ (-e).toNat)
    (b * 2 ^ e.toNat * 10 ^ (-d.exponent).toNat)

/-- The same decimal without zeros at its end; `n` bounds how many are removed. -/
def stripZeros : Nat → Decimal → Decimal
  | 0, d => d
  | n + 1, d => if d.digits % 10 = 0 then stripZeros n ⟨d.digits / 10, d.exponent + 1⟩ else d

end Decimal

namespace Binary64

/-- Whether a decimal lies among the reals that round to the magnitude of `x`. -/
def readsBack (x : Binary64) (d : Decimal) : Bool :=
  let m := x.significand
  let narrow := m = 2 ^ (52 : Nat) && x.exponent > -1074
  let low := d.compareBinary (if narrow then 4 * m - 1 else 4 * m - 2) (x.exponent - 2)
  let high := d.compareBinary (4 * m + 2) (x.exponent - 2)
  let closed := m % 2 = 0
  (low == .gt || (closed && low == .eq)) && (high == .lt || (closed && high == .eq))

/-- The magnitude of `x`, scaled by `10 ^ -k`: numerator and denominator. -/
def scaledRatio (x : Binary64) (k : Int) : Nat × Nat :=
  (x.num * 10 ^ (-k).toNat, x.den * 10 ^ k.toNat)

/-- The least exponent `k` with the magnitude of a nonzero `x` below `10 ^ k`. The binary
logarithm gives an estimate that is at most a step or two too small. -/
def decimalScale (x : Binary64) : Int :=
  let estimate : Int := ((x.significand.log2 : Int) + x.exponent) * 1233 / 4096 - 1
  let below (k : Int) : Bool := (x.scaledRatio k).1 < (x.scaledRatio k).2
  match (List.range 5).find? fun (i : Nat) => below (estimate + (i : Int)) with
  | some i => estimate + (i : Int)
  | none => estimate + 5

/-- The decimal with last place `10 ^ k` that reads back to `x`, nearest first, even on a tie. -/
def nearestAt? (x : Binary64) (k : Int) : Option Decimal :=
  let (n, d) := x.scaledRatio k
  let low : Decimal := ⟨n / d, k⟩
  let high : Decimal := ⟨n / d + 1, k⟩
  match x.readsBack low, x.readsBack high with
  | true, true =>
    let r := 2 * (n % d)
    some (if r < d || (r == d && low.digits % 2 == 0) then low else high)
  | true, false => some low
  | false, true => some high
  | false, false => none

/-- The magnitude of `x` with all its digits. -/
def exactDecimal (x : Binary64) : Decimal :=
  if 0 ≤ x.exponent then ⟨x.num, 0⟩
  else ⟨x.significand * 5 ^ (-x.exponent).toNat, x.exponent⟩

/-- The shortest decimal that reads back to the magnitude of a nonzero `x`. Seventeen digits
always read back. -/
def shortest (x : Binary64) : Decimal :=
  let k := x.decimalScale
  let d := (List.range 17).findSome? fun (i : Nat) => x.nearestAt? (k - 1 - (i : Int))
  (d.getD x.exactDecimal).stripZeros 20

/-- How a magnitude is written: the point stands within the digits, or up to four zeros
follow it, or up to sixteen digits precede it; past that the exponent is written. -/
def layout (negative : Bool) (d : Decimal) : Numeral :=
  let ds := Nat.toDigits 10 d.digits
  let point : Int := ds.length + d.exponent
  if -4 ≤ point ∧ point ≤ 0 then
    ⟨negative, ['0'], some (List.replicate (-point).toNat '0' ++ ds), none⟩
  else if 0 < point ∧ point < ds.length then
    ⟨negative, ds.take point.toNat, some (ds.drop point.toNat), none⟩
  else if 0 < point ∧ point ≤ 16 then
    ⟨negative, ds ++ List.replicate (point.toNat - ds.length) '0', some ['0'], none⟩
  else
    let e := point - 1
    ⟨negative, ds.take 1, if ds.length ≤ 1 then none else some (ds.drop 1),
      some (some (if e < 0 then '-' else '+'), Nat.toDigits 10 e.natAbs)⟩

/-- How a double is written. Zero keeps its sign. -/
def numeral (x : Binary64) : Numeral :=
  if x.isZero then ⟨x.negative, ['0'], some ['0'], none⟩ else layout x.negative x.shortest

example : (ofDecimal? false 30000000000000004 (-17)).map (·.numeral.text)
    = some "0.30000000000000004".toList := by decide +kernel
example : (ofDecimal? true 15 (-8)).map (·.numeral.text)
    = some "-1.5e-7".toList := by decide +kernel
example : (ofDecimal? false 1 (-5)).map (·.numeral.text)
    = some "0.00001".toList := by decide +kernel
example : (ofDecimal? false 1 16).map (·.numeral.text) = some "1e+16".toList := by decide +kernel
example : (ofDecimal? false 1 23).map (·.numeral.text) = some "1e+23".toList := by decide +kernel
example : (ofDecimal? false 5 (-324)).map (·.numeral.text)
    = some "5e-324".toList := by decide +kernel
example : (ofDecimal? false 298023223876953125 (-25)).map (·.numeral.text)
    = some "2.9802322387695312e-8".toList := by decide +kernel

end Binary64

end CallContract
