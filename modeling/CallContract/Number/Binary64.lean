/-!
# Finite doubles

A finite double is kept as sign, significand and binary exponent, so every step is exact
integer arithmetic followed by one rounding. `Binary64.ofRatio?` is that rounding: to the
nearest double, a tie to the even significand, `none` past the largest double. Sums are not
needed; products, quotients and decimals are ratios.
-/

namespace CallContract

-- Powers of numbers are the built-in ones, whatever else is imported.
attribute [local instance (high)] instPowNat

/-- The finite double `± significand · 2 ^ exponent`. -/
structure Binary64 where
  negative : Bool
  significand : Nat
  exponent : Int
deriving DecidableEq, Repr

namespace Binary64

/-- Zero with a sign. -/
def zero (negative : Bool) : Binary64 := ⟨negative, 0, -1074⟩

/-- The same double with its sign turned. -/
def neg (x : Binary64) : Binary64 := { x with negative := !x.negative }

/-- Whether a double is one of the two zeros. -/
def isZero (x : Binary64) : Bool := x.significand = 0

/-- The numerator of the magnitude. -/
def num (x : Binary64) : Nat := x.significand * 2 ^ x.exponent.toNat

/-- The denominator of the magnitude. -/
def den (x : Binary64) : Nat := 2 ^ (-x.exponent).toNat

/-- Numerical equality: the two zeros are equal. -/
def same (x y : Binary64) : Bool := (x.isZero && y.isZero) || x == y

/-- `n / d`, scaled by `2 ^ -e`, rounded down, with what is left over and its divisor. -/
def scaledDown (n d : Nat) (e : Int) : Nat × Nat × Nat :=
  let n := n * 2 ^ (-e).toNat
  let d := d * 2 ^ e.toNat
  (n / d, n % d, d)

/-- The exponent at which `n / d` has a significand of 53 bits, but at least that of the
smallest doubles. -/
def exponentFor (n d : Nat) : Int :=
  let e : Int := (n.log2 : Int) - d.log2 - 53
  max (-1074) (if (scaledDown n d e).1 < 2 ^ (53 : Nat) then e else e + 1)

/-- Rounds the quotient `q` with remainder `r` of a division by `d`: to nearest, ties to even. -/
def roundUp (q r d : Nat) : Nat :=
  if 2 * r < d then q
  else if d < 2 * r then q + 1
  else if q % 2 = 0 then q else q + 1

/-- The double nearest to `± n / d`, if its magnitude is not past the largest double. -/
def ofRatio? (negative : Bool) (n d : Nat) : Option Binary64 :=
  if n = 0 then some (zero negative)
  else
    let e := exponentFor n d
    let (q, r, d) := scaledDown n d e
    let m := roundUp q r d
    let x : Binary64 :=
      if m = 2 ^ (53 : Nat) then ⟨negative, 2 ^ (52 : Nat), e + 1⟩ else ⟨negative, m, e⟩
    if x.exponent ≤ 971 then some x else none

/-- The double nearest to `± digits · 10 ^ exponent`. Magnitudes that are clearly past the
largest double or below half of the smallest are told by the count of digits alone. -/
def ofDecimal? (negative : Bool) (digits : Nat) (exponent : Int) : Option Binary64 :=
  if digits = 0 then some (zero negative)
  else if exponent < -400 - 2 * (digits.log2 : Int) then some (zero negative)
  else if 400 < exponent then none
  else ofRatio? negative (digits * 10 ^ exponent.toNat) (10 ^ (-exponent).toNat)

/-- The double nearest to a natural number. -/
def ofNat? (n : Nat) : Option Binary64 := ofRatio? false n 1

/-- The product, rounded once. -/
def mul? (x y : Binary64) : Option Binary64 :=
  ofRatio? (x.negative != y.negative) (x.num * y.num) (x.den * y.den)

/-- The quotient by a nonzero double, rounded once. -/
def div? (x y : Binary64) : Option Binary64 :=
  ofRatio? (x.negative != y.negative) (x.num * y.den) (x.den * y.num)

/-- The integer that a double is, if it has no fraction. -/
def toInt? (x : Binary64) : Option Int :=
  if x.num % x.den = 0 then
    let n : Int := (x.num / x.den : Nat)
    some (if x.negative then -n else n)
  else none

example : (ofDecimal? false 1 (-1)).map (·.significand) = some 7205759403792794 := by
  decide +kernel
example : ofDecimal? false 5 (-324) = some ⟨false, 1, -1074⟩ := by decide +kernel
example : ofDecimal? false 17976931348623159 292 = none := by decide +kernel
example : ofDecimal? false 24703282292062327208 (-343) = some (zero false) := by decide +kernel

end Binary64

end CallContract
