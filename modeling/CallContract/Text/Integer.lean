/-!
# Reading integers

A natural number is one or more digits of a radix between 2 and 36, letters of either case
standing for the digits from ten on. An unsigned number may have a plus sign, a signed one
either sign; both are refused outside their limits.
-/

namespace CallContract.Text

-- Powers of numbers are the built-in ones, whatever else is imported.
attribute [local instance (high)] instPowNat

/-- The value of a digit in some radix. -/
def digitValue? (radix : Nat) (c : Char) : Option Nat :=
  let d :=
    if c.isDigit then c.toNat - 48
    else if c.isUpper then c.toNat - 55
    else if c.isLower then c.toNat - 87
    else radix
  if d < radix then some d else none

/-- The number that the digits of `s` continue when `n` has been read. -/
def naturalFrom? (radix : Nat) : Nat → List Char → Option Nat
  | n, [] => some n
  | n, c :: s => (digitValue? radix c).bind fun d => naturalFrom? radix (n * radix + d) s

/-- The number that `s` spells, if it is not empty and all of it are digits. -/
def natural? (radix : Nat) (s : List Char) : Option Nat :=
  if s.isEmpty then none else naturalFrom? radix 0 s

/-- The number below `limit` that `s` spells, with an optional plus sign. -/
def unsigned? (radix limit : Nat) (s : List Char) : Option Nat :=
  let n := match s with
    | '+' :: r => natural? radix r
    | _ => natural? radix s
  n.filter (· < limit)

/-- Whether an integer fits in 64 bits with a sign. -/
def fitsSigned (i : Int) : Bool := decide (-(2 ^ (63 : Nat)) ≤ i) && decide (i < 2 ^ (63 : Nat))

/-- The integer that `s` spells, with an optional sign, if it fits in 64 bits with a sign. -/
def signed? (radix : Nat) (s : List Char) : Option Int :=
  let i : Option Int := match s with
    | '+' :: r => (natural? radix r).map Int.ofNat
    | '-' :: r => (natural? radix r).map fun n => -(n : Int)
    | _ => (natural? radix s).map Int.ofNat
  i.filter fitsSigned

end CallContract.Text
