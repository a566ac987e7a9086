import CallContract.Proofs.Number.Rounding
import Mathlib

/-!
# Natural numbers that are doubles

A natural number is a double if 53 of its bits are enough, the others being zeros at its end
(`Binary64.Holds`). The others lose what does not fit : a number of more than 53 bits is cut behind
the first 53 of them and rounded there (`Binary64.ofNat?_long`). So the double nearest to a number
is the number itself exactly if it is such a one (`Binary64.exists_isNat_iff`).
-/

namespace CallContract

-- Powers of numbers are the built-in ones, whatever else is imported.
attribute [local instance (high)] instPowNat

namespace Binary64

variable {n k : Nat}

/-- `Holds n` : 53 bits with zeros behind them are enough for the natural number `n`. -/
def Holds (n : Nat) : Prop := ∃ m e, m < 2 ^ (53 : Nat) ∧ n = m * 2 ^ e

/-- Of a number of more than 53 bits the last ones have to be zeros. -/
theorem holds_iff (hn : n ≠ 0) (hk : n.log2 = 52 + k) : Holds n ↔ n % 2 ^ k = 0 := by
  constructor
  · rintro ⟨m, e, hm, rfl⟩
    have hm0 : m ≠ 0 := by
      rintro rfl
      exact hn (Nat.zero_mul _)
    have hlog : m.log2 < 53 := (Nat.log2_lt hm0).mpr hm
    rw [log2_mul_two_pow hm0] at hk
    exact Nat.mod_eq_zero_of_dvd
      ((Nat.pow_dvd_pow 2 (by omega)).trans (Nat.dvd_mul_left (2 ^ e) m))
  · intro h
    have hlt : n < 2 ^ (53 : Nat) * 2 ^ k := by
      have := Nat.lt_log2_self (n := n)
      rwa [hk, Nat.add_right_comm, Nat.pow_add] at this
    exact ⟨n / 2 ^ k, k, Nat.div_lt_of_lt_mul (by rwa [Nat.mul_comm]),
      (Nat.div_mul_cancel (Nat.dvd_of_mod_eq_zero h)).symm⟩

theorem holds_of_le (h : n ≤ 2 ^ (53 : Nat)) : Holds n := by
  rcases Nat.lt_or_eq_of_le h with hlt | rfl
  · exact ⟨n, 0, hlt, (Nat.mul_one n).symm⟩
  · exact ⟨1, 53, by decide, (Nat.one_mul _).symm⟩

/-! ## Rounding behind 53 bits -/

theorem scaledDown_long (n k : Nat) : scaledDown n 1 k = (n / 2 ^ k, n % 2 ^ k, 2 ^ k) := by
  have hzero : (-(k : Int)).toNat = 0 := by omega
  simp only [scaledDown, hzero, Int.toNat_natCast, Nat.pow_zero, Nat.mul_one, Nat.one_mul]

/-- A number of more than 53 bits is cut behind the first 53 of them. -/
theorem exponentFor_long (hn : n ≠ 0) (hk : n.log2 = 53 + k) : exponentFor n 1 = (k + 1 : Nat) := by
  have hone : (1 : Nat).log2 = 0 := by decide
  have hstart : (n.log2 : Int) - (1 : Nat).log2 - 53 = (k : Nat) := by
    rw [hone]
    omega
  have hbits : 2 ^ (53 : Nat) ≤ n / 2 ^ k := by
    rw [Nat.le_div_iff_mul_le (Nat.two_pow_pos k), ← Nat.pow_add, ← hk]
    exact Nat.log2_self_le hn
  simp only [exponentFor, hstart, scaledDown_long, if_neg (Nat.not_lt.mpr hbits)]
  omega

/-- The double nearest to a number of more than 53 bits is a multiple of the last one that is
kept. -/
theorem ofNat?_long (hn : n ≠ 0) (hk : n.log2 = 53 + k) (hlarge : k < 970) :
    ∃ x, ofNat? n = some x ∧ x.negative = false ∧ x.den = 1 ∧
      x.num = roundUp (n / 2 ^ (k + 1)) (n % 2 ^ (k + 1)) (2 ^ (k + 1)) * 2 ^ (k + 1) := by
  simp only [ofNat?, ofRatio?, if_neg hn, exponentFor_long hn hk, scaledDown_long]
  have hzero : (-((k + 1 : Nat) : Int)).toNat = 0 := by omega
  split
  · rename_i hm
    have hcarry : (-(((k + 1 : Nat) : Int) + 1)).toNat = 0 := by omega
    have hnext : (((k + 1 : Nat) : Int) + 1).toNat = 1 + (k + 1) := by omega
    refine ⟨_, if_pos (by simp only; omega), rfl, ?_, ?_⟩
    · rw [den, hcarry, Nat.pow_zero]
    · rw [hm, num, hnext, Nat.pow_add, ← Nat.mul_assoc, ← Nat.pow_add]
  · refine ⟨_, if_pos (by simp only; omega), rfl, ?_, ?_⟩
    · rw [den, hzero, Nat.pow_zero]
    · rw [num, Int.toNat_natCast]

/-- Rounding changes nothing only if nothing is left over. -/
theorem roundUp_mul_eq_iff (n k : Nat) :
    roundUp (n / 2 ^ k) (n % 2 ^ k) (2 ^ k) * 2 ^ k = n ↔ n % 2 ^ k = 0 := by
  constructor
  · intro h
    rw [← h, Nat.mul_mod_left]
  · intro h
    rw [h, roundUp, if_pos (by simp)]
    exact Nat.div_mul_cancel (Nat.dvd_of_mod_eq_zero h)

/-- The double nearest to a natural number of 64 bits is the number itself exactly if 53 of them
are enough. -/
theorem exists_isNat_iff (h : n < 2 ^ (64 : Nat)) :
    ∃ x, ofNat? n = some x ∧ x.negative = false ∧ (x.IsNat n ↔ Holds n) := by
  rcases Nat.lt_or_ge n (2 ^ (53 : Nat)) with hlt | hge
  · obtain ⟨x, hx, hnat⟩ := exists_ofNat? hlt.le
    exact ⟨x, hx, hnat.negative, iff_of_true hnat (holds_of_le hlt.le)⟩
  have hn : n ≠ 0 := (Nat.lt_of_lt_of_le (Nat.two_pow_pos 53) hge).ne'
  obtain ⟨k, hk⟩ := Nat.exists_eq_add_of_le ((Nat.le_log2 hn).mpr hge)
  have hlarge : n.log2 < 64 := (Nat.log2_lt hn).mpr h
  obtain ⟨x, hx, hsign, hden, hnum⟩ := ofNat?_long hn hk (by omega)
  have hiff : x.num = n * x.den ↔ n % 2 ^ (k + 1) = 0 := by
    rw [hden, Nat.mul_one, hnum, roundUp_mul_eq_iff]
  refine ⟨x, hx, hsign, ?_⟩
  rw [holds_iff hn (by omega : n.log2 = 52 + (k + 1)), ← hiff]
  exact ⟨IsNat.num, fun hval => ⟨hsign, hval⟩⟩

end Binary64

end CallContract
