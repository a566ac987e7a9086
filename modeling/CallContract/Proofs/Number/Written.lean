import CallContract.Json.Number
import CallContract.Proofs.Number.Numeral

/-!
# How numbers are written

The numeral of every number is well formed (`Json.Number.wellFormed_numeral`), doubles of any
magnitude included : the shortest digits of a double other than zero do not start with a zero
(`Binary64.digits_shortest_pos`).

An integer within the limits of a JSON number is read back from its numeral
(`Json.Number.read?_numeral_integer`). A double need not be.
-/

namespace CallContract

-- Powers of numbers are the built-in ones, whatever else is imported.
attribute [local instance (high)] instPowNat

/-! ## The numeral of a double -/

theorem Decimal.digits_stripZeros_pos : ∀ (n : Nat) {d : Decimal}, 0 < d.digits →
    0 < (d.stripZeros n).digits
  | 0, _, h => h
  | n + 1, d, h => by
    rw [stripZeros]
    split
    · exact digits_stripZeros_pos n (d := ⟨d.digits / 10, d.exponent + 1⟩) (by simp only; omega)
    · exact h

namespace Binary64

variable {x : Binary64} {d : Decimal}

/-- No double other than zero is read from zero digits. -/
theorem digits_pos_of_readsBack (hx : 0 < x.significand) (h : x.readsBack d = true) :
    0 < d.digits := by
  refine Nat.pos_of_ne_zero fun hd => ?_
  have hlow : ∀ b, 0 < b → d.compareBinary b (x.exponent - 2) = .lt := by
    intro b hb
    rw [Decimal.compareBinary, hd, Nat.zero_mul, Nat.zero_mul, Nat.compare_eq_lt]
    exact Nat.mul_pos (Nat.mul_pos hb (Nat.two_pow_pos _)) (Nat.pow_pos (by omega))
  unfold readsBack at h
  simp only at h
  rw [hlow _ (by split <;> omega)] at h
  simp at h

theorem digits_nearestAt?_pos {k : Int} (hx : 0 < x.significand)
    (h : x.nearestAt? k = some d) : 0 < d.digits := by
  unfold nearestAt? at h
  simp only at h
  split at h
  · rename_i hlow hhigh
    split at h
    · exact Option.some.inj h ▸ digits_pos_of_readsBack hx hlow
    · exact Option.some.inj h ▸ digits_pos_of_readsBack hx hhigh
  · rename_i hlow _
    exact Option.some.inj h ▸ digits_pos_of_readsBack hx hlow
  · rename_i _ hhigh
    exact Option.some.inj h ▸ digits_pos_of_readsBack hx hhigh
  · simp at h

theorem digits_exactDecimal_pos (hx : 0 < x.significand) : 0 < x.exactDecimal.digits := by
  unfold exactDecimal
  split
  · exact Nat.mul_pos hx (Nat.two_pow_pos _)
  · exact Nat.mul_pos hx (Nat.pow_pos (by omega))

theorem digits_shortest_pos (hx : 0 < x.significand) : 0 < x.shortest.digits := by
  unfold shortest
  refine Decimal.digits_stripZeros_pos 20 ?_
  cases hfound : (List.range 17).findSome? fun (i : Nat) =>
      x.nearestAt? (x.decimalScale - 1 - (i : Int)) with
  | none => exact digits_exactDecimal_pos hx
  | some d =>
    obtain ⟨i, _, hi⟩ := List.exists_of_findSome?_eq_some hfound
    exact digits_nearestAt?_pos hx hi

/-- The digits of a decimal are laid out as a well-formed numeral. -/
theorem wellFormed_layout (negative : Bool) (hd : 0 < d.digits) :
    (layout negative d).WellFormed := by
  have hdigits := isDigits_toDigits d.digits
  have hhead := head?_toDigits hd
  have hzero : ∀ n, ∀ c ∈ List.replicate n '0', c.isDigit = true := by
    intro n c hc
    rw [(List.mem_replicate.mp hc).2]
    decide
  have hnone : ∀ e ∈ (none : Option (Option Char × List Char)),
      IsDigits e.2 ∧ ∀ c ∈ e.1, c = '+' ∨ c = '-' := fun e he => by cases he
  have htake : ∀ n, 0 < n → ((Nat.toDigits 10 d.digits).take n).head? ≠ some '0' := by
    intro n hn
    rwa [List.head?_take, if_neg (by omega)]
  unfold layout
  simp only
  split
  -- the point stands in front of the digits
  · refine ⟨Or.inl rfl, fun ds hds => ?_, hnone⟩
    obtain rfl := Option.some.inj hds
    exact ⟨fun h => hdigits.1 (List.append_eq_nil_iff.mp h).2, fun c hc =>
      (List.mem_append.mp hc).elim (hzero _ c) (hdigits.2 c)⟩
  split
  -- the point stands within the digits
  · rename_i hpoint
    refine ⟨Or.inr ⟨hdigits.take (by omega), htake _ (by omega)⟩, fun ds hds => ?_, hnone⟩
    obtain rfl := Option.some.inj hds
    exact hdigits.drop (by omega)
  split
  -- zeros lead up to the point
  · refine ⟨Or.inr ⟨hdigits.append (hzero _), ?_⟩, fun ds hds => ?_, hnone⟩
    · obtain ⟨c, cs, hcs⟩ := List.exists_cons_of_ne_nil hdigits.1
      rw [hcs] at hhead ⊢
      exact hhead
    · obtain rfl := Option.some.inj hds
      exact ⟨List.cons_ne_nil _ _, List.forall_mem_singleton.mpr rfl⟩
  -- the exponent is written
  · refine ⟨Or.inr ⟨hdigits.take (by omega), htake 1 (by omega)⟩, fun ds hds => ?_,
      fun e he => ?_⟩
    · split at hds
      · cases hds
      · obtain rfl := Option.some.inj hds
        exact hdigits.drop (by omega)
    · obtain rfl := Option.some.inj he
      refine ⟨isDigits_toDigits _, fun c hc => ?_⟩
      obtain rfl := Option.some.inj hc
      split
      · exact Or.inr rfl
      · exact Or.inl rfl

theorem wellFormed_numeral (x : Binary64) : x.numeral.WellFormed := by
  unfold numeral
  split
  · refine ⟨Or.inl rfl, fun ds hds => ?_, fun e he => by cases he⟩
    obtain rfl := Option.some.inj hds
    exact ⟨List.cons_ne_nil _ _, List.forall_mem_singleton.mpr rfl⟩
  · rename_i hx
    refine wellFormed_layout x.negative (digits_shortest_pos ?_)
    unfold isZero at hx
    rw [decide_eq_true_eq] at hx
    omega

end Binary64

namespace Json.Number

theorem wellFormed_numeral_integer (i : Int) : (integer i).numeral.WellFormed := by
  refine ⟨?_, fun _ hds => (Option.not_mem_none _ hds).elim,
    fun _ he => (Option.not_mem_none _ he).elim⟩
  rcases Nat.eq_zero_or_pos i.natAbs with hi | hi
  · left
    rw [numeral, hi]
    rfl
  · exact Or.inr ⟨isDigits_toDigits _, head?_toDigits hi⟩

theorem wellFormed_numeral : ∀ n : Number, n.numeral.WellFormed
  | integer i => wellFormed_numeral_integer i
  | double x => x.wellFormed_numeral

/-! ## Integers are read back -/

/-- All digits are taken if the number that they make up is below 2^64. -/
theorem absorb_eq {m : Nat} : ∀ {ds : List Char} {n : Nat}, Nat.ofDigitChars 10 ds n = m →
    m < 2 ^ (64 : Nat) → absorb n ds = (m, ds.length)
  | [], n, h, _ => by rw [absorb, ← h]; rfl
  | c :: ds, n, h, hm => by
    have hnext : n * 10 + (c.toNat - 48) ≤ m := by
      rw [← h, Nat.ofDigitChars_cons, Nat.ofDigitChars_eq_ofDigitChars_zero, Nat.mul_comm n 10]
      refine Nat.le_trans ?_ (Nat.le_add_right _ _)
      exact Nat.le_mul_of_pos_left _ (Nat.pow_pos (by omega))
    have hrest : Nat.ofDigitChars 10 ds (n * 10 + (c.toNat - 48)) = m := by
      rw [← h, Nat.ofDigitChars_cons, Nat.mul_comm n 10]
      rfl
    rw [absorb]
    simp only
    rw [if_pos (by omega), absorb_eq hrest hm]
    rfl

theorem absorb_toDigits {n : Nat} (h : n < 2 ^ (64 : Nat)) :
    absorb 0 (Nat.toDigits 10 n) = (n, (Nat.toDigits 10 n).length) :=
  absorb_eq Nat.ofDigitChars_ten_toDigits h

/-- The integers of JSON numbers. -/
def InRange (i : Int) : Prop := -(2 ^ (63 : Nat)) ≤ i ∧ i < 2 ^ (64 : Nat)

theorem read?_numeral_integer {i : Int} (h : InRange i) :
    read? (integer i).numeral = some (integer i) := by
  obtain ⟨hlow, hhigh⟩ := h
  have hlt : i.natAbs < 2 ^ (64 : Nat) := by omega
  unfold read?
  rw [numeral]
  simp only [absorb_toDigits hlt, Int.sub_self, if_true]
  by_cases hneg : i < 0
  · rw [if_pos (by simpa using hneg), if_pos (by omega)]
    congr 2
    omega
  · rw [if_neg (by simpa using hneg)]
    congr 2
    omega

theorem absorb_lt : ∀ (ds : List Char) {n : Nat}, n < 2 ^ (64 : Nat) →
    (absorb n ds).1 < 2 ^ (64 : Nat)
  | [], _, h => h
  | c :: ds, n, h => by
    rw [absorb]
    simp only
    split
    · exact absorb_lt ds ‹_›
    · exact h

theorem double?_ne_integer {negative : Bool} {n : Nat} {e i : Int} :
    double? negative n e ≠ some (integer i) := by
  intro h
  simp only [double?, Option.bind_eq_bind, Option.bind_eq_some_iff] at h
  obtain ⟨_, _, _, _, h⟩ := h
  cases h

/-- What is read as an integer is within the limits. -/
theorem inRange_of_read? {n : Numeral} {i : Int} (h : read? n = some (integer i)) :
    InRange i := by
  have hlt := absorb_lt n.whole (n := 0) (by omega)
  unfold read? at h
  simp only at h
  split at h
  · split at h
    · split at h
      · split at h
        · rename_i hwhole
          obtain rfl := integer.inj (Option.some.inj h)
          exact ⟨by omega, by omega⟩
        · exact absurd h double?_ne_integer
      · obtain rfl := integer.inj (Option.some.inj h)
        exact ⟨by omega, by omega⟩
    · exact absurd h double?_ne_integer
  · exact absurd h double?_ne_integer
  · exact absurd h double?_ne_integer

end Json.Number

end CallContract
