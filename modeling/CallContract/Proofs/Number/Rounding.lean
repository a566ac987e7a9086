import CallContract.Json.Number
import Mathlib

/-!
# Numbers that are rounded once

Rounding knows nothing of the sign (`Binary64.ofRatio?_eq_map`), and a ratio is rounded as its
multiples by powers of two are (`Binary64.ofRatio?_mul_two_pow`). A natural number up to 2^53 is a
double (`Binary64.exists_ofNat?`), and so are the powers of ten up to 10^22. A product or a quotient
of two such doubles is therefore the double nearest to that of the numbers, and digits that are
scaled by a power of ten are rounded once, not twice (`Json.Number.double?_eq`).
-/

namespace CallContract

-- Powers of numbers are the built-in ones, whatever else is imported.
attribute [local instance (high)] instPowNat

namespace Binary64

/-! ## Signs -/

/-- The same magnitude with a sign. -/
def withSign (negative : Bool) (x : Binary64) : Binary64 := { x with negative }

theorem ofRatio?_eq_map (negative : Bool) (n d : Nat) :
    ofRatio? negative n d = (ofRatio? false n d).map (withSign negative) := by
  unfold ofRatio?
  split
  · rfl
  · simp only
    split <;> split <;> rfl

theorem neg_or_self {x : Binary64} (hx : x.negative = false) (negative : Bool) :
    (if negative then x.neg else x) = x.withSign negative := by
  obtain ⟨sign, m, e⟩ := x
  obtain rfl : sign = false := hx
  cases negative <;> rfl

theorem negative_of_ofRatio? {negative : Bool} {n d : Nat} {x : Binary64}
    (h : ofRatio? negative n d = some x) : x.negative = negative := by
  rw [ofRatio?_eq_map] at h
  obtain ⟨y, -, rfl⟩ := Option.map_eq_some_iff.mp h
  rfl

/-! ## Multiples of a ratio -/

theorem log2_mul_two_pow {n : Nat} (hn : n ≠ 0) (k : Nat) : (n * 2 ^ k).log2 = n.log2 + k := by
  have hne : n * 2 ^ k ≠ 0 := Nat.mul_ne_zero hn (Nat.two_pow_pos k).ne'
  rw [Nat.log2_eq_iff hne, Nat.pow_add, Nat.add_right_comm, Nat.pow_add]
  exact ⟨Nat.mul_le_mul_right _ (Nat.log2_self_le hn),
    Nat.mul_lt_mul_of_pos_right Nat.lt_log2_self (Nat.two_pow_pos k)⟩

theorem scaledDown_mul {c : Nat} (hc : 0 < c) (n d : Nat) (e : Int) :
    scaledDown (n * c) (d * c) e = ((scaledDown n d e).1, (scaledDown n d e).2.1 * c,
      (scaledDown n d e).2.2 * c) := by
  simp only [scaledDown, Nat.mul_right_comm _ c, Nat.mul_div_mul_right _ _ hc,
    Nat.mul_mod_mul_right]

theorem roundUp_mul {c : Nat} (hc : 0 < c) (q r d : Nat) :
    roundUp q (r * c) (d * c) = roundUp q r d := by
  simp only [roundUp, ← Nat.mul_assoc, Nat.mul_lt_mul_right hc]

theorem exponentFor_mul_two_pow {n d : Nat} (hn : n ≠ 0) (hd : d ≠ 0) (k : Nat) :
    exponentFor (n * 2 ^ k) (d * 2 ^ k) = exponentFor n d := by
  have hlog : ((n * 2 ^ k).log2 : Int) - (d * 2 ^ k).log2 - 53 = n.log2 - d.log2 - 53 := by
    rw [log2_mul_two_pow hn, log2_mul_two_pow hd]
    omega
  simp only [exponentFor, hlog, scaledDown_mul (Nat.two_pow_pos k)]

theorem ofRatio?_mul_two_pow {d : Nat} (hd : d ≠ 0) (negative : Bool) (n k : Nat) :
    ofRatio? negative (n * 2 ^ k) (d * 2 ^ k) = ofRatio? negative n d := by
  rcases Nat.eq_zero_or_pos n with rfl | hn
  · rw [Nat.zero_mul]
    rfl
  · have hne : n * 2 ^ k ≠ 0 := (Nat.mul_pos hn (Nat.two_pow_pos k)).ne'
    simp only [ofRatio?, if_neg hne, if_neg hn.ne', exponentFor_mul_two_pow hn.ne' hd,
      scaledDown_mul (Nat.two_pow_pos k), roundUp_mul (Nat.two_pow_pos k)]

/-! ## Natural numbers -/

/-- `x.IsNat n` : the double `x` is the natural number `n`. -/
structure IsNat (x : Binary64) (n : Nat) : Prop where
  negative : x.negative = false
  num : x.num = n * x.den

variable {x y : Binary64} {n m : Nat}

theorem IsNat.mul? (hx : x.IsNat n) (hy : y.IsNat m) : x.mul? y = ofRatio? false (n * m) 1 := by
  have hden : x.den * y.den = 1 * 2 ^ ((-x.exponent).toNat + (-y.exponent).toNat) := by
    rw [Nat.one_mul, Nat.pow_add]
    rfl
  have hnum : x.num * y.num = n * m * 2 ^ ((-x.exponent).toNat + (-y.exponent).toNat) := by
    rw [← Nat.one_mul (2 ^ _), ← hden, hx.num, hy.num]
    ring
  rw [Binary64.mul?, hx.negative, hy.negative, hden, hnum]
  exact ofRatio?_mul_two_pow Nat.one_ne_zero _ _ _

theorem IsNat.div? (hx : x.IsNat n) (hy : y.IsNat m) (hm : m ≠ 0) :
    x.div? y = ofRatio? false n m := by
  have hden : x.den * y.den = 2 ^ ((-x.exponent).toNat + (-y.exponent).toNat) := by
    rw [Nat.pow_add]
    rfl
  have hleft : x.num * y.den = n * 2 ^ ((-x.exponent).toNat + (-y.exponent).toNat) := by
    rw [← hden, hx.num, Nat.mul_assoc]
  have hright : x.den * y.num = m * 2 ^ ((-x.exponent).toNat + (-y.exponent).toNat) := by
    rw [← hden, hy.num]
    ring
  rw [Binary64.div?, hx.negative, hy.negative, hleft, hright]
  exact ofRatio?_mul_two_pow hm _ _ _

theorem isNat_zero : (zero false).IsNat 0 where
  negative := rfl
  num := by simp [zero, num]

theorem scaledDown_one (n k : Nat) : scaledDown n 1 (-(k : Int)) = (n * 2 ^ k, 0, 1) := by
  have hzero : (-(k : Int)).toNat = 0 := by omega
  simp only [scaledDown, Int.neg_neg, Int.toNat_natCast, hzero, Nat.pow_zero, Nat.mul_one,
    Nat.div_one, Nat.mod_one]

/-- A natural number of fewer than 54 bits is doubled until it has 53 bits. -/
theorem exponentFor_one {k : Nat} (hn : n ≠ 0) (hk : n.log2 + k = 52) :
    exponentFor n 1 = -(k : Int) := by
  have hone : (1 : Nat).log2 = 0 := by decide
  have hstart : (n.log2 : Int) - (1 : Nat).log2 - 53 = -((k + 1 : Nat) : Int) := by
    rw [hone]
    omega
  have hbits : 2 ^ (53 : Nat) ≤ n * 2 ^ (k + 1) := by
    have := Nat.mul_le_mul_right (2 ^ (k + 1)) (Nat.log2_self_le hn)
    rwa [← Nat.pow_add, ← Nat.add_assoc, hk] at this
  simp only [exponentFor, hstart, scaledDown_one, if_neg (Nat.not_lt.mpr hbits)]
  omega

theorem ofNat?_eq {k : Nat} (hn : n ≠ 0) (hk : n.log2 + k = 52) :
    ofNat? n = some ⟨false, n * 2 ^ k, -(k : Int)⟩ := by
  have hbits : n * 2 ^ k < 2 ^ (53 : Nat) := by
    have := Nat.mul_lt_mul_of_pos_right (Nat.lt_log2_self (n := n)) (Nat.two_pow_pos k)
    rwa [← Nat.pow_add, Nat.add_right_comm, hk] at this
  have hround : roundUp (n * 2 ^ k) 0 1 = n * 2 ^ k := rfl
  simp only [ofNat?, ofRatio?, if_neg hn, exponentFor_one hn hk, scaledDown_one, hround,
    if_neg hbits.ne]
  exact if_pos (by omega)

/-- Every natural number up to 2^53 is a double. -/
theorem exists_ofNat? (h : n ≤ 2 ^ (53 : Nat)) : ∃ x, ofNat? n = some x ∧ x.IsNat n := by
  rcases Nat.eq_zero_or_pos n with rfl | hn
  · exact ⟨_, rfl, isNat_zero⟩
  rcases Nat.lt_or_eq_of_le h with hlt | rfl
  · have hlog := (Nat.log2_lt hn.ne').mpr hlt
    obtain ⟨k, hk⟩ := Nat.exists_eq_add_of_le (Nat.le_of_lt_succ hlog)
    refine ⟨_, ofNat?_eq hn.ne' hk.symm, rfl, ?_⟩
    have hzero : (-(k : Int)).toNat = 0 := by omega
    simp only [num, den, hzero, Int.neg_neg, Int.toNat_natCast, Nat.pow_zero, Nat.mul_one]
  · have hlast : ofNat? (2 ^ (53 : Nat)) = some ⟨false, 2 ^ (52 : Nat), 1⟩ := by decide +kernel
    exact ⟨_, hlast, rfl, by decide +kernel⟩

/-- A decimal with a small power of ten is a ratio. -/
theorem ofDecimal?_eq {e : Int} (hlow : -22 ≤ e) (hhigh : e ≤ 22) (negative : Bool) (n : Nat) :
    ofDecimal? negative n e =
      ofRatio? negative (n * 10 ^ e.toNat) (10 ^ (-e).toNat) := by
  unfold ofDecimal?
  split
  · rename_i hn
    rw [hn, Nat.zero_mul]
    rfl
  · rw [if_neg (by omega), if_neg (by omega)]

end Binary64

namespace Json.Number

open Binary64 (ofRatio? withSign)

/-- Powers of ten up to 10^22 are doubles. -/
theorem exists_powerOfTen? {k : Nat} (h : k ≤ 22) :
    ∃ x, powerOfTen? k = some x ∧ x.IsNat (10 ^ k) := by
  have hall : ∀ i : Fin 23, (powerOfTen? i).any (fun x =>
      !x.negative && x.num == 10 ^ (i : Nat) * x.den) = true := by decide +kernel
  have hk := hall ⟨k, by omega⟩
  cases hx : powerOfTen? k with
  | none =>
    rw [hx] at hk
    cases hk
  | some x =>
    rw [hx] at hk
    obtain ⟨hsign, hnum⟩ := Bool.and_eq_true_iff.mp hk
    exact ⟨x, rfl, by simpa using hsign, beq_iff_eq.mp hnum⟩

/-- A natural number is scaled by a small power of ten in one rounding. -/
theorem scale?_eq {x : Binary64} {n : Nat} {e : Int} (hx : x.IsNat n) (hlow : -22 ≤ e)
    (hhigh : e ≤ 22) : scale? x e = ofRatio? false (n * 10 ^ e.toNat) (10 ^ (-e).toNat) := by
  unfold scale?
  split
  · rename_i hpos
    obtain ⟨y, hy, hten⟩ := exists_powerOfTen? (k := e.toNat) (by omega)
    have hzero : (-e).toNat = 0 := by omega
    rw [if_pos (by omega), hy, hzero]
    exact hx.mul? hten
  · obtain ⟨y, hy, hten⟩ := exists_powerOfTen? (k := (-e).toNat) (by omega)
    have hzero : e.toNat = 0 := by omega
    rw [if_pos (by omega), hy, hzero, Nat.pow_zero, Nat.mul_one]
    exact hx.div? hten (Nat.pow_pos (by omega)).ne'

/-- Few digits that are scaled by a small power of ten are rounded once. -/
theorem double?_eq {n : Nat} {e : Int} (hn : n ≤ 2 ^ (53 : Nat)) (hlow : -22 ≤ e) (hhigh : e ≤ 22)
    (negative : Bool) : double? negative n e =
      (ofRatio? false (n * 10 ^ e.toNat) (10 ^ (-e).toNat)).map fun x =>
        .double (x.withSign negative) := by
  obtain ⟨x, hx, hnat⟩ := Binary64.exists_ofNat? hn
  rw [double?, hx, Option.bind_eq_bind, Option.bind_some, scale?_eq hnat hlow hhigh]
  cases ofRatio? false (n * 10 ^ e.toNat) (10 ^ (-e).toNat) <;> rfl

end Json.Number

end CallContract
