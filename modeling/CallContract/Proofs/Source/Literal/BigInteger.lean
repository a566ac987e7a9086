import CallContract.Coercion
import CallContract.Proofs.Number.Exact
import CallContract.Proofs.Path.Above
import CallContract.Proofs.Quoted
import CallContract.Proofs.Source.Literal.Number
import CallContract.Proofs.Text.Trim
import Mathlib

/-!
# Big integers are rounded to doubles

A decimal big integer is spelled by its digits and an `n` (`BigInteger.text`). As a literal it goes
through a double, like every other number, and as the value of an option it is read digit by digit.
So the two agree where nothing is rounded (`BigInteger.literal_iff`) : if 53 bits are enough for the
number. From 2^53 on the literal loses the last digits of the others, and the least integer of 64
bits stays a double. The option refuses the underscores that the literal may have.
-/

namespace CallContract.Source

-- Powers of numbers are the built-in ones, whatever else is imported.
attribute [local instance (high)] instPowNat

open Json (Number Value)

/-- A decimal big integer as it is spelled : digits, and underscores behind the first of them, with
a minus sign in front or not. -/
structure BigInteger where
  negative : Bool
  digits : List Char
  isDigitRun : IsDigitRun digits

namespace BigInteger

/-- The literal behind the sign. -/
def unsigned (b : BigInteger) : List Char := b.digits ++ ['n']

/-- The text of a big integer. -/
def text (b : BigInteger) : List Char := (if b.negative then ['-'] else []) ++ b.unsigned

/-- The number that the digits spell. -/
def magnitude (b : BigInteger) : Nat := Nat.ofDigitChars 10 (b.digits.filter (· ≠ '_')) 0

/-- The integer that a big integer is. -/
def value (b : BigInteger) : Int := if b.negative then -(b.magnitude : Int) else b.magnitude

theorem natAbs_value (b : BigInteger) : b.value.natAbs = b.magnitude := by
  unfold value
  split
  · rw [Int.natAbs_neg, Int.natAbs_natCast]
  · exact Int.natAbs_natCast _

/-- An integer of 64 bits is at most 2^63 from zero. -/
theorem magnitude_le {b : BigInteger} (h : Text.fitsSigned b.value = true) :
    b.magnitude ≤ 2 ^ (63 : Nat) := by
  obtain ⟨hlow, hhigh⟩ := Bool.and_eq_true_iff.mp h
  have hlow := of_decide_eq_true hlow
  have hhigh := of_decide_eq_true hhigh
  rw [← b.natAbs_value]
  omega

theorem isDigits_filter (b : BigInteger) : IsDigits (b.digits.filter (· ≠ '_')) := by
  obtain ⟨c, hc, hdigit⟩ := b.isDigitRun.head
  have hne : c ≠ '_' := by
    rintro rfl
    cases hdigit
  refine ⟨List.ne_nil_of_mem (a := c)
    (List.mem_filter.mpr ⟨List.mem_of_mem_head? hc, by simpa using hne⟩), fun d hd => ?_⟩
  obtain ⟨hmem, hd⟩ := List.mem_filter.mp hd
  exact (b.isDigitRun.all d hmem).resolve_right (by simpa using hd)

end BigInteger

/-! ## The literal -/

theorem radixDigits?_of_isDigit {ds : List Char} (h : ∀ c ∈ ds, c.isDigit = true) :
    radixDigits? ds = none := by
  have hletter : ∀ {c : Char} {r : List Char}, c.isDigit = false → ds ≠ '0' :: c :: r := by
    rintro c r hc rfl
    have := h c (List.mem_cons_of_mem _ List.mem_cons_self)
    rw [hc] at this
    cases this
  unfold radixDigits?
  split
  · exact absurd rfl (hletter rfl)
  · exact absurd rfl (hletter rfl)
  · exact absurd rfl (hletter rfl)
  · rfl

/-- Digits are rounded to a double. -/
theorem decimalDouble?_of_isDigits {ds : List Char} (h : IsDigits ds) :
    decimalDouble? ds = Binary64.ofNat? (Nat.ofDigitChars 10 ds 0) := by
  have hend : NoDigit [] := fun c hc => (Option.not_mem_none _ hc).elim
  have hsign := Numeral.signPart_digits (r := []) h
  have htake := takeWhile_isDigit h.2 hend
  have hdrop := dropWhile_isDigit h.2 hend
  rw [List.append_nil] at hsign htake hdrop
  have hdigits := Text.natural?_of_isDigits h
  have hround := Binary64.ofDecimal?_eq (e := 0) (by omega) (by omega) false
    (Nat.ofDigitChars 10 ds 0)
  simp only [decimalDouble?, hsign, htake, hdrop, List.append_nil, hdigits, Numeral.exponentPart]
  exact hround.trans (congrArg (Binary64.ofRatio? false · 1) (Nat.mul_one _))

theorem numberLiteral?_unsigned (b : BigInteger) (negative : Bool) :
    numberLiteral? b.unsigned negative = (Binary64.ofNat? b.magnitude).map fun x =>
      numberOfDouble (x.withSign negative) := by
  have hdigits := b.isDigits_filter
  have hfilter : b.unsigned.filter (· ≠ '_') = b.digits.filter (· ≠ '_') ++ ['n'] :=
    List.filter_append _ _
  have hdouble : literalDouble? b.unsigned = Binary64.ofNat? b.magnitude := by
    simp only [literalDouble?, hfilter, Text.beforeEnd?_append, Option.getD_some,
      map_toLower_of_isDigit hdigits.2, radixDigits?_of_isDigit hdigits.2,
      decimalDouble?_of_isDigits hdigits]
    rfl
  rw [numberLiteral?, hdouble]
  refine Option.map_congr fun x hx => ?_
  rw [Binary64.neg_or_self (Binary64.negative_of_ofRatio? hx)]

/-- A double becomes an integer if it is one and is below 2^63. -/
theorem numberOfDouble_eq_integer_iff {x : Binary64} {m : Nat} (hx : x.negative = false)
    (negative : Bool) :
    numberOfDouble (x.withSign negative) = .integer (if negative then -(m : Int) else m) ↔
      x.IsNat m ∧ m < 2 ^ (63 : Nat) := by
  refine ⟨fun h => ?_, fun h => numberOfDouble_of_isNat h.1 h.2 negative⟩
  unfold numberOfDouble at h
  split at h
  · rename_i i hi
    split at h
    · rename_i hlt
      have hvalue := Number.integer.inj h
      unfold Binary64.toInt? at hi
      split at hi
      · rename_i hmod
        have hquotient : x.num / x.den = m := by
          have hquotient := (Option.some.inj hi).trans hvalue
          change (if negative = true then -((x.num / x.den : Nat) : Int)
            else ((x.num / x.den : Nat) : Int)) = _ at hquotient
          split at hquotient <;> omega
        have hnum := (Nat.div_mul_cancel (Nat.dvd_of_mod_eq_zero hmod)).symm
        exact ⟨⟨hx, hquotient ▸ hnum⟩, by split at hvalue <;> omega⟩
      · cases hi
    · cases h
  · cases h

/-- A big integer is read to its `n`. -/
theorem BigInteger.exists_numberAt (b : BigInteger) :
    ∃ c r, b.unsigned = c :: r ∧ c.isDigit = true ∧ NumberAt c r [] := by
  obtain ⟨c, r, hcons, hc, hlength⟩ := b.isDigitRun.eq_cons
  refine ⟨c, r ++ ['n'], by rw [unsigned, hcons, List.cons_append], hc, .of_isDigit hc ?_⟩
  rw [List.append_nil, hlength, List.length_append]
  rfl

/-! ## The option -/

section Refused

variable {radix : Nat} {s : List Char} {c : Char}

theorem natural?_eq_none (hc : c ∈ s) (halpha : c.isAlphanum = false) :
    Text.natural? radix s = none := by
  cases h : Text.natural? radix s with
  | none => rfl
  | some n =>
    have := Text.isAlphanum_of_natural? h c hc
    rw [halpha] at this
    cases this

theorem unsigned?_eq_none {limit : Nat} (hc : c ∈ s) (halpha : c.isAlphanum = false)
    (hplus : c ≠ '+') : Text.unsigned? radix limit s = none := by
  unfold Text.unsigned?
  split
  · rw [natural?_eq_none ((List.mem_cons.mp hc).resolve_left hplus) halpha]
    rfl
  · rw [natural?_eq_none hc halpha]
    rfl

end Refused

namespace BigInteger

theorem natural?_digits (b : BigInteger) :
    Text.natural? 10 b.digits = if '_' ∈ b.digits then none else some b.magnitude := by
  split
  · rename_i hmem
    exact natural?_eq_none hmem rfl
  · rename_i hmem
    have hfilter : b.digits.filter (· ≠ '_') = b.digits :=
      List.filter_eq_self.mpr fun c hc => by
        simpa using fun heq : c = '_' => hmem (heq ▸ hc)
    have hdigits := b.isDigits_filter
    rw [magnitude, hfilter]
    rw [hfilter] at hdigits
    exact Text.natural?_of_isDigits hdigits

theorem signed?_digits (b : BigInteger) :
    Text.signed? 10 ((if b.negative then ['-'] else []) ++ b.digits) =
      ((Text.natural? 10 b.digits).map fun n : Nat =>
        if b.negative then -(n : Int) else n).filter Text.fitsSigned := by
  cases b.negative with
  | true =>
    simp only [if_true, List.singleton_append, Text.signed?]
    cases Text.natural? 10 b.digits <;> rfl
  | false =>
    obtain ⟨c, r, hcons, hc, -⟩ := b.isDigitRun.eq_cons
    rw [if_neg (by decide), List.nil_append, hcons, Text.signed?]
    · rfl
    · rintro r' heq
      obtain ⟨rfl, -⟩ := List.cons.inj heq
      cases hc
    · rintro r' heq
      obtain ⟨rfl, -⟩ := List.cons.inj heq
      cases hc

/-- A big integer as the value of an option : its digits are read one by one, and underscores
refuse it. -/
theorem integer?_text {b : BigInteger} (h : Text.fitsSigned b.value = true) :
    Coercion.integer? b.text = if '_' ∈ b.digits then none else some b.value := by
  have hblank : ∀ c ∈ b.text, Text.isBlank c = false := by
    have hmarks : ∀ c ∈ ['-', '_', 'n'], Text.isBlank c = false :=
      List.forall_iff_forall_mem.mp (by decide)
    have hsign : ∀ c ∈ if b.negative then ['-'] else [], Text.isBlank c = false := by
      split
      · exact fun c hc => List.mem_singleton.mp hc ▸ hmarks '-' (by decide)
      · exact fun c hc => (List.not_mem_nil hc).elim
    have hdigits : ∀ c ∈ b.digits, Text.isBlank c = false := fun c hc =>
      (b.isDigitRun.all c hc).elim Text.isBlank_of_isDigit fun heq => heq ▸ hmarks '_' (by decide)
    rw [text, unsigned]
    simp only [List.forall_mem_append]
    exact ⟨hsign, hdigits, List.forall_mem_singleton.mpr (hmarks 'n' (by decide))⟩
  have hcut : Text.beforeEnd? ['n'] b.text =
      some ((if b.negative then ['-'] else []) ++ b.digits) := by
    rw [text, unsigned, ← List.append_assoc, Text.beforeEnd?_append]
  simp only [Coercion.integer?, Text.trim_of_forall hblank, hcut, Option.getD_some,
    signed?_digits, natural?_digits]
  by_cases hmem : '_' ∈ b.digits
  · rw [if_pos hmem, if_pos hmem,
      unsigned?_eq_none (c := '_') (List.mem_append_right _ hmem) rfl (by decide)]
    rfl
  · rw [value] at h
    rw [if_neg hmem, if_neg hmem, Option.map_some, Option.filter_some, if_pos h]
    rfl

/-- A big integer of 64 bits as a literal is what the double nearest to it becomes. That is the
integer itself exactly if 53 bits are enough for it and it is not the least of all. As the value of
an option it is the integer itself unless there is an underscore in it. -/
theorem literal_iff (b : BigInteger) (h : Text.fitsSigned b.value = true) :
    ∃ l x, tokenize b.text = .ok l ∧ Binary64.ofNat? b.magnitude = some x ∧
      literal? l.tokens = some (.number (numberOfDouble (x.withSign b.negative))) ∧
      (literal? l.tokens = some (.number (.integer b.value)) ↔
        Binary64.Holds b.magnitude ∧ b.magnitude < 2 ^ (63 : Nat)) ∧
      Coercion.numeric .bigint (.string (String.ofList b.text)) =
        if '_' ∈ b.digits then .error (.string (String.ofList b.text))
        else .ok (.number (.integer b.value)) := by
  obtain ⟨c, r, hcons, hc, hnumber⟩ := b.exists_numberAt
  obtain ⟨l, hl, hliteral⟩ := exists_tokenize_signed hc hnumber b.negative
  obtain ⟨x, hx, hsign, hexact⟩ := Binary64.exists_isNat_iff
    (Nat.lt_of_le_of_lt (magnitude_le h) (by decide))
  rw [← hcons] at hl hliteral
  rw [numberLiteral?_unsigned, hx] at hliteral
  refine ⟨l, x, hl, hx, hliteral, ?_, ?_⟩
  · rw [hliteral, ← hexact, ← numberOfDouble_eq_integer_iff hsign b.negative]
    simp only [Option.map_some, Option.some.injEq, Value.number.injEq]
    rfl
  · simp only [Coercion.numeric, Coercion.scalar?, String.toList_ofList, integer?_text h]
    by_cases hmem : '_' ∈ b.digits
    · simp only [if_pos hmem, Option.map_none]
    · simp only [if_neg hmem, Option.map_some]

/-- The first integer that needs 54 bits. -/
def firstRounded : BigInteger where
  negative := false
  digits := "9007199254740993".toList
  isDigitRun := ⟨⟨'9', rfl, rfl⟩, List.forall_iff_forall_mem.mp (by decide)⟩

theorem literal_iff_firstRounded : Text.fitsSigned firstRounded.value = true ∧
    ∃ l, tokenize "9007199254740993n".toList = .ok l ∧
      literal? l.tokens ≠ some (.number (.integer 9007199254740993)) ∧
      Coercion.numeric .bigint (.string "9007199254740993n") =
        .ok (.number (.integer 9007199254740993)) := by
  have hfits : Text.fitsSigned firstRounded.value = true := by decide +kernel
  obtain ⟨l, x, hl, -, -, hiff, hoption⟩ := literal_iff firstRounded hfits
  have hmagnitude : firstRounded.magnitude = 9007199254740993 := by decide +kernel
  have hlost : ¬Binary64.Holds 9007199254740993 := by
    rw [Binary64.holds_iff (k := 1) (by decide) (by decide +kernel)]
    decide
  rw [hmagnitude] at hiff
  exact ⟨hfits, l, hl, fun h => hlost (hiff.mp h).1, hoption⟩

/-- Not every big integer of 64 bits is the same as a literal and as the value of an option. -/
theorem not_forall_literal_eq : ¬∀ b : BigInteger, Text.fitsSigned b.value = true →
    ∃ l v, tokenize b.text = .ok l ∧ literal? l.tokens = some v ∧
      v = .number (.integer b.value) ∧
      Coercion.numeric .bigint (.string (String.ofList b.text)) = .ok v := by
  intro h
  obtain ⟨l, v, hl, hv, hvalue, -⟩ := h firstRounded (by decide +kernel)
  obtain ⟨c, r, hcons, hc, hnumber⟩ := firstRounded.exists_numberAt
  obtain ⟨l', hl', hliteral⟩ := exists_tokenize_signed hc hnumber false
  have hrounded : numberLiteral? firstRounded.unsigned false =
      some (.integer 9007199254740992) := by decide +kernel
  rw [← hcons] at hl' hliteral
  obtain rfl : l = l' := Except.ok.inj (hl.symm.trans hl')
  rw [hv, hvalue, hrounded] at hliteral
  have hdigit : firstRounded.value = 9007199254740992 :=
    Number.integer.inj (Value.number.inj (Option.some.inj hliteral))
  revert hdigit
  decide +kernel

-- The least integer of 64 bits is a double, but does not become an integer.
example : numberLiteral? "9223372036854775808n".toList true =
    some (.double ⟨true, 2 ^ (52 : Nat), 11⟩) := by decide +kernel

end BigInteger

end CallContract.Source
