import CallContract.Proofs.Number.Rounding
import CallContract.Proofs.Number.Written
import CallContract.Proofs.Source.Printing.Layout
import CallContract.Source.Parameters
import Mathlib

/-!
# Numbers of JSON text as literals

A number of JSON text is spelled as a literal of the source language is, but the two languages read
it by rules of their own : JSON has a double wherever there is a point or an exponent, and scales
its digits, the source language takes the double nearest to the decimal, and then an integer for
each double without a fraction.

If the digits of the text and its power of ten are doubles themselves (`Numeral.Short`), nothing is
rounded twice, and the literal is the JSON number apart from that last step
(`Source.numberLiteral?_eq`, `Source.exists_tokenize_numeral`).
-/

namespace CallContract

-- Powers of numbers are the built-in ones, whatever else is imported.
attribute [local instance (high)] instPowNat

/-! ## Digits and powers of ten -/

namespace Numeral

/-- The number that an exponent spells. -/
def exponentValue : Option (Option Char × List Char) → Int
  | none => 0
  | some (sign, ds) =>
    let e : Int := (Nat.ofDigitChars 10 ds 0 : Nat)
    if sign = some '-' then -e else e

/-- The digits of a numeral as one number. -/
def digits (n : Numeral) : Nat := Nat.ofDigitChars 10 (n.whole ++ n.fraction.getD []) 0

/-- The power of ten that the digits of a numeral are multiplied by. -/
def scale (n : Numeral) : Int := exponentValue n.exponent - (n.fraction.getD []).length

/-- A numeral whose digits and whose power of ten are doubles. -/
structure Short (n : Numeral) : Prop where
  digits : n.digits ≤ 2 ^ (53 : Nat)
  low : -22 ≤ n.scale
  high : n.scale ≤ 22

variable {n : Numeral}

theorem WellFormed.isDigits_whole (h : n.WellFormed) : IsDigits n.whole := by
  rcases h.whole with hw | ⟨hw, -⟩
  · rw [hw]
    exact ⟨List.cons_ne_nil _ _, List.forall_mem_singleton.mpr rfl⟩
  · exact hw

theorem WellFormed.isDigit_fraction (h : n.WellFormed) :
    ∀ c ∈ n.fraction.getD [], c.isDigit = true := by
  cases hf : n.fraction with
  | none => exact fun c hc => (List.not_mem_nil hc).elim
  | some ds => exact (h.fraction ds hf).2

theorem natural?_digits (h : n.WellFormed) :
    Text.natural? 10 (n.whole ++ n.fraction.getD []) = some n.digits :=
  Text.natural?_of_isDigits (h.isDigits_whole.append h.isDigit_fraction)

theorem exponentValue_eq (h : n.WellFormed) : exponentValue n.exponent =
    match n.exponent with
    | none => 0
    | some (sign, ds) =>
      let e : Int := ((Text.natural? 10 ds).getD 0 : Nat)
      if sign = some '-' then -e else e := by
  cases he : n.exponent with
  | none => rfl
  | some e => simp only [exponentValue, Text.natural?_of_isDigits (h.exponent e he).1,
      Option.getD_some]

/-- What the digits make up does not fall. -/
theorem le_ofDigitChars (ds : List Char) (n : Nat) : n ≤ Nat.ofDigitChars 10 ds n := by
  rw [Nat.ofDigitChars_eq_ofDigitChars_zero]
  exact Nat.le_trans (Nat.le_mul_of_pos_left _ (Nat.pow_pos (by omega))) (Nat.le_add_right _ _)

end Numeral

/-! ## JSON -/

namespace Json.Number

variable {n : Numeral}

/-- All digits are taken if there are not too many. -/
theorem absorb_digits (h : n.digits < 2 ^ (64 : Nat)) :
    absorb 0 n.whole = (Nat.ofDigitChars 10 n.whole 0, n.whole.length) ∧
      absorb (Nat.ofDigitChars 10 n.whole 0) (n.fraction.getD []) =
        (n.digits, (n.fraction.getD []).length) := by
  have heq : Nat.ofDigitChars 10 (n.fraction.getD []) (Nat.ofDigitChars 10 n.whole 0) =
      n.digits := by
    rw [Numeral.digits, Nat.ofDigitChars_append]
  have hle := Numeral.le_ofDigitChars (n.fraction.getD []) (Nat.ofDigitChars 10 n.whole 0)
  exact ⟨absorb_eq rfl (by omega), absorb_eq heq h⟩

/-- A number with a point or an exponent is a double. -/
theorem read?_point (hn : n.WellFormed) (h : n.digits < 2 ^ (64 : Nat))
    (hpoint : n.fraction ≠ none ∨ n.exponent ≠ none) :
    read? n = double? n.negative n.digits n.scale := by
  obtain ⟨hwhole, hfraction⟩ := absorb_digits h
  have hvalue := Numeral.exponentValue_eq hn
  unfold read? Numeral.scale
  simp only [hwhole, hfraction]
  cases he : n.exponent with
  | some e =>
    rw [he] at hvalue
    cases hf : n.fraction <;> (simp only [hvalue]; congr 1; omega)
  | none =>
    cases hf : n.fraction with
    | none => exact absurd hpoint (by simp [hf, he])
    | some ds => simp only [Numeral.exponentValue]; congr 1; omega

/-- A number without a point and an exponent is an integer, unless it is a negative zero or too
low. -/
theorem read?_whole (h : n.digits < 2 ^ (64 : Nat)) (hf : n.fraction = none)
    (he : n.exponent = none) : read? n =
      if n.negative then
        if 0 < n.digits ∧ n.digits ≤ 2 ^ (63 : Nat) then some (.integer (-(n.digits : Int)))
        else double? true n.digits 0
      else some (.integer n.digits) := by
  have hwhole := (absorb_digits h).1
  have hdigits : Nat.ofDigitChars 10 n.whole 0 = n.digits := by
    rw [Numeral.digits, hf, Option.getD_none, List.append_nil]
  unfold read?
  simp only [hwhole, hdigits, hf, he, Int.sub_self, if_true]

theorem same_self (n : Number) : n.same n = true := by
  cases n <;> simp [same, Binary64.same]

end Json.Number

/-! ## The source language -/

namespace Source

open Numeral (SpellsExponent fractionText exponentText)
open Json (Number)

variable {n : Numeral} {e : List Char}

theorem isDigitRun_of_isDigits {ds : List Char} (h : IsDigits ds) : IsDigitRun ds where
  head := by
    obtain ⟨c, cs, rfl, hc⟩ := Numeral.isDigit_head_of_isDigits h
    exact ⟨c, rfl, hc⟩
  all c hc := Or.inl (h.2 c hc)

theorem isExponent_of_spells (hn : n.WellFormed) (he : SpellsExponent n.exponent e) :
    IsExponent e := by
  cases hexponent : n.exponent with
  | none =>
    rw [hexponent] at he
    cases he
    exact .none
  | some p =>
    obtain ⟨hds, hsign⟩ := hn.exponent p hexponent
    rw [hexponent] at he
    cases he with
    | some hletter => exact .some hletter hsign (isDigitRun_of_isDigits hds)

/-- A number of JSON text is a decimal number of the source language. -/
theorem isDecimal_magnitude (hn : n.WellFormed) (he : SpellsExponent n.exponent e) :
    IsDecimal (n.magnitude e) := by
  have hwhole := isDigitRun_of_isDigits hn.isDigits_whole
  have hexponent := isExponent_of_spells hn he
  unfold Numeral.magnitude
  cases hf : n.fraction with
  | none => exact .whole hwhole hexponent
  | some ds =>
    exact .point hwhole (Or.inr (isDigitRun_of_isDigits (hn.fraction ds hf))) hexponent

/-- The characters of decimal numbers without underscores. -/
def numberMarks : List Char := ['.', 'e', 'E', '+', '-']

theorem isDigit_or_of_mem_magnitude (hn : n.WellFormed) (he : SpellsExponent n.exponent e) :
    ∀ c ∈ n.magnitude e, c.isDigit = true ∨ c ∈ numberMarks := by
  have hexponent : ∀ c ∈ e, c.isDigit = true ∨ c ∈ numberMarks := by
    cases hp : n.exponent with
    | none =>
      rw [hp] at he
      cases he
      exact fun c hc => (List.not_mem_nil hc).elim
    | some p =>
      obtain ⟨hds, hsign⟩ := hn.exponent p hp
      rw [hp] at he
      cases he with
      | @some letter sign ds hletter =>
        refine List.forall_mem_cons.mpr ⟨?_, fun c hc => ?_⟩
        · rcases hletter with rfl | rfl <;> exact Or.inr (by decide)
        · rcases List.mem_append.mp hc with hc | hc
          · rcases hsign c (Option.mem_toList.mp hc) with rfl | rfl <;> exact Or.inr (by decide)
          · exact Or.inl (hds.2 c hc)
  intro c hc
  rcases List.mem_append.mp hc with hc | hc
  · exact Or.inl (hn.isDigits_whole.2 c hc)
  rcases List.mem_append.mp hc with hc | hc
  · cases hf : n.fraction with
    | none =>
      rw [hf] at hc
      exact (List.not_mem_nil hc).elim
    | some ds =>
      rw [hf] at hc
      rcases List.mem_cons.mp hc with rfl | hc
      · exact Or.inr (by decide)
      · exact Or.inl ((hn.fraction ds hf).2 c hc)
  · exact hexponent c hc

/-- Another character is not in the text of a decimal number. -/
theorem not_mem_magnitude (hn : n.WellFormed) (he : SpellsExponent n.exponent e) {c : Char}
    (hdigit : c.isDigit = false) (hmark : c ∉ numberMarks) : c ∉ n.magnitude e := by
  intro hc
  rcases isDigit_or_of_mem_magnitude hn he c hc with h | h
  · rw [hdigit] at h
    cases h
  · exact hmark h

theorem toLower_of_isDigit {c : Char} (h : c.isDigit = true) : c.toLower = c := by
  have hle : c.val.toNat ≤ 57 := by
    simp only [Char.isDigit, Bool.and_eq_true, decide_eq_true_eq, UInt32.le_iff_toNat_le] at h
    exact h.2
  unfold Char.toLower
  split
  · rename_i hupper
    simp only [ge_iff_le, UInt32.le_iff_toNat_le] at hupper
    have : 65 ≤ c.val.toNat := hupper.1
    omega
  · rfl

theorem map_toLower_of_isDigit {ds : List Char} (h : ∀ c ∈ ds, c.isDigit = true) :
    ds.map Char.toLower = ds := by
  rw [List.map_congr_left fun c hc => toLower_of_isDigit (h c hc), List.map_id']

theorem spellsExponent_text : ∀ p : Option (Option Char × List Char),
    SpellsExponent p (exponentText p)
  | none => .none
  | some (_, _) => .some (Or.inl rfl)

/-- In lower case the letter of the exponent is small. -/
theorem map_toLower_magnitude (hn : n.WellFormed) (he : SpellsExponent n.exponent e) :
    (n.magnitude e).map Char.toLower = n.magnitude (exponentText n.exponent) := by
  have hfraction : (fractionText n.fraction).map Char.toLower = fractionText n.fraction := by
    cases hf : n.fraction with
    | none => rfl
    | some ds =>
      rw [fractionText, List.map_cons, map_toLower_of_isDigit (hn.fraction ds hf).2]
      rfl
  have hexponent : e.map Char.toLower = exponentText n.exponent := by
    cases hp : n.exponent with
    | none =>
      rw [hp] at he
      cases he
      rfl
    | some p =>
      obtain ⟨hds, hsign⟩ := hn.exponent p hp
      rw [hp] at he
      cases he with
      | @some letter sign ds hletter =>
        have hmap : sign.toList.map Char.toLower = sign.toList := by
          cases sign with
          | none => rfl
          | some c => rcases hsign c rfl with rfl | rfl <;> rfl
        have hlower : letter.toLower = 'e' := by rcases hletter with rfl | rfl <;> rfl
        rw [List.map_cons, List.map_append, hmap, hlower, map_toLower_of_isDigit hds.2]
        rfl
  rw [Numeral.magnitude, List.map_append, List.map_append,
    map_toLower_of_isDigit hn.isDigits_whole.2, hfraction, hexponent]
  rfl

/-- The decimal is read digit by digit. -/
theorem decimalDouble?_magnitude (hn : n.WellFormed) :
    decimalDouble? (n.magnitude (exponentText n.exponent)) =
      Binary64.ofDecimal? false n.digits n.scale := by
  have hend : Numeral.Ends [] := fun c hc => (Option.not_mem_none _ hc).elim
  have hrest : NoDigit (fractionText n.fraction ++ exponentText n.exponent) := by
    have := Numeral.noDigit_fractionText (f := n.fraction) (e := n.exponent) hend
    rwa [List.append_nil] at this
  have hexponent : Numeral.exponentPart (exponentText n.exponent) = some (n.exponent, []) := by
    have := Numeral.exponentPart_text hn.exponent hend
    rwa [List.append_nil] at this
  have hpoint : ∀ r, exponentText n.exponent ≠ '.' :: r := by
    intro r hr
    cases hp : n.exponent <;> simp [hp, exponentText] at hr
  have hdigits := Numeral.natural?_digits hn
  have hvalue := Numeral.exponentValue_eq hn
  unfold decimalDouble? Numeral.magnitude
  rw [Numeral.signPart_digits hn.isDigits_whole]
  simp only [takeWhile_isDigit hn.isDigits_whole.2 hrest,
    dropWhile_isDigit hn.isDigits_whole.2 hrest]
  cases hf : n.fraction with
  | none =>
    rw [fractionText, List.nil_append]
    rw [hf, Option.getD_none] at hdigits
    split
    · rename_i heq
      exact absurd heq (hpoint _)
    · simp only [hdigits, hexponent, Numeral.scale, hvalue, hf]
      rfl
  | some ds =>
    have hbehind : NoDigit (exponentText n.exponent) := by
      have := Numeral.noDigit_exponentText (e := n.exponent) hend
      rwa [List.append_nil] at this
    have hds := (hn.fraction ds hf).2
    rw [hf, Option.getD_some] at hdigits
    simp only [fractionText, List.cons_append, takeWhile_isDigit hds hbehind,
      dropWhile_isDigit hds hbehind, hdigits, hexponent, Numeral.scale, hvalue, hf]
    rfl

/-- The double of a literal that is a number of JSON text. -/
theorem literalDouble?_magnitude (hn : n.WellFormed) (he : SpellsExponent n.exponent e) :
    literalDouble? (n.magnitude e) = Binary64.ofDecimal? false n.digits n.scale := by
  have hfilter : (n.magnitude e).filter (· ≠ '_') = n.magnitude e :=
    List.filter_eq_self.mpr fun c hc => by
      simpa using fun heq : c = '_' => not_mem_magnitude hn he rfl (by decide) (heq ▸ hc)
  have hend : Text.beforeEnd? ['n'] (n.magnitude e) = none := by
    cases hcut : Text.beforeEnd? ['n'] (n.magnitude e) with
    | none => rfl
    | some r =>
      have hmem : 'n' ∈ n.magnitude e := by simp [Text.eq_append_of_beforeEnd? hcut]
      exact absurd hmem (not_mem_magnitude hn he rfl (by decide))
  have hradix : radixDigits? (n.magnitude (exponentText n.exponent)) = none := by
    have hlower : ∀ {c : Char} {r : List Char}, c.isDigit = false → c ∉ numberMarks →
        n.magnitude (exponentText n.exponent) ≠ '0' :: c :: r := fun hdigit hmark heq =>
      not_mem_magnitude hn (spellsExponent_text _) hdigit hmark (by simp [heq])
    unfold radixDigits?
    split
    · rename_i heq; exact absurd heq (hlower rfl (by decide))
    · rename_i heq; exact absurd heq (hlower rfl (by decide))
    · rename_i heq; exact absurd heq (hlower rfl (by decide))
    · rfl
  simp only [literalDouble?, hfilter, hend, Option.getD_none, map_toLower_magnitude hn he, hradix,
    decimalDouble?_magnitude hn]

/-- The number that the source language has for a JSON number : a double without a fraction is an
integer. -/
def narrowed : Number → Number
  | .integer i => .integer i
  | .double x => numberOfDouble x

/-- An integer and a double are told apart. -/
theorem same_narrowed_iff {k : Number} : (narrowed k).same k = true ↔ narrowed k = k := by
  refine ⟨fun h => ?_, fun h => by rw [h]; exact k.same_self⟩
  cases k with
  | integer i => rfl
  | double x =>
    rw [narrowed] at h ⊢
    unfold numberOfDouble at h ⊢
    split
    · rename_i hx
      rw [hx] at h
      split
      · rename_i hlt
        simp only [if_pos hlt] at h
        cases h
      · rfl
    · rfl

theorem numberOfDouble_of_isNat {x : Binary64} {m : Nat} (hx : x.IsNat m)
    (hm : m < 2 ^ (63 : Nat)) (negative : Bool) :
    numberOfDouble (x.withSign negative) = .integer (if negative then -(m : Int) else m) := by
  have hden : 0 < x.den := Nat.two_pow_pos _
  have hmod : (x.withSign negative).num % (x.withSign negative).den = 0 := by
    change x.num % x.den = 0
    rw [hx.num, Nat.mul_mod_left]
  have hdiv : (x.withSign negative).num / (x.withSign negative).den = m := by
    change x.num / x.den = m
    rw [hx.num, Nat.mul_div_cancel _ hden]
  have hint : (x.withSign negative).toInt? = some (if negative then -(m : Int) else m) := by
    unfold Binary64.toInt?
    rw [if_pos hmod, hdiv]
    rfl
  have hlt : (if negative then -(m : Int) else m).natAbs < 2 ^ (63 : Nat) := by
    cases negative <;> simp only [Bool.false_eq_true, if_false, if_true] <;> omega
  simp only [numberOfDouble, hint, if_pos hlt]

/-- A literal that is a number of JSON text is that number, if the text is short. -/
theorem numberLiteral?_eq (hn : n.WellFormed) (hshort : n.Short)
    (he : SpellsExponent n.exponent e) {w : Number} (hw : Number.read? n = some w) :
    numberLiteral? (n.magnitude e) n.negative = some (narrowed w) := by
  obtain ⟨hdigits, hlow, hhigh⟩ := hshort
  have hread : numberLiteral? (n.magnitude e) n.negative =
      (Binary64.ofRatio? false (n.digits * 10 ^ n.scale.toNat) (10 ^ (-n.scale).toNat)).map
        fun x => numberOfDouble (x.withSign n.negative) := by
    rw [numberLiteral?, literalDouble?_magnitude hn he, Binary64.ofDecimal?_eq hlow hhigh]
    refine Option.map_congr fun x hx => ?_
    rw [Binary64.neg_or_self (Binary64.negative_of_ofRatio? hx)]
  rw [hread]
  by_cases hpoint : n.fraction ≠ none ∨ n.exponent ≠ none
  · rw [Number.read?_point hn (by omega) hpoint, Number.double?_eq hdigits hlow hhigh] at hw
    obtain ⟨x, hx, rfl⟩ := Option.map_eq_some_iff.mp hw
    rw [hx]
    rfl
  · obtain ⟨hfraction, hexponent⟩ : n.fraction = none ∧ n.exponent = none := by
      simpa [not_or] using hpoint
    have hscale : n.scale = 0 := by
      simp [Numeral.scale, hfraction, hexponent, Numeral.exponentValue]
    obtain ⟨x, hx, hnat⟩ := Binary64.exists_ofNat? hdigits
    have hratio : Binary64.ofRatio? false (n.digits * 10 ^ n.scale.toNat) (10 ^ (-n.scale).toNat) =
        some x := by
      rw [hscale, ← hx]
      exact congrArg (Binary64.ofRatio? false · 1) (Nat.mul_one _)
    have hinteger := numberOfDouble_of_isNat hnat (by omega)
    rw [Number.read?_whole (by omega) hfraction hexponent] at hw
    rw [hratio, Option.map_some, hinteger]
    cases hsign : n.negative with
    | false =>
      rw [hsign] at hw
      rw [← Option.some.inj hw]
      rfl
    | true =>
      rw [hsign, if_pos rfl] at hw
      split at hw
      · rw [← Option.some.inj hw]
        rfl
      · -- the negative zero is a double
        rw [Number.double?_eq hdigits (by decide) (by decide)] at hw
        obtain ⟨y, hy, rfl⟩ := Option.map_eq_some_iff.mp hw
        rw [hscale] at hratio
        obtain rfl : x = y := Option.some.inj (hratio.symm.trans hy)
        rw [narrowed, hinteger]

theorem literal?_number {t : Token} {s : List Char} (ht : t.lexeme = .number (String.ofList s)) :
    literal? [t] = (numberLiteral? s false).map Json.Value.number := by
  simp only [literal?, ht, String.toList_ofList]

theorem literal?_minus {sign t : Token} {s : List Char} (hsign : sign.lexeme = .mark .minus)
    (ht : t.lexeme = .number (String.ofList s)) :
    literal? [sign, t] = (numberLiteral? s true).map Json.Value.number := by
  simp only [literal?, hsign, ht, String.toList_ofList]

/-- The tokens of a number that starts with a digit, behind a minus sign or not, are a literal. -/
theorem exists_tokenize_signed {c : Char} {r : List Char} (hc : c.isDigit = true)
    (h : NumberAt c r []) (negative : Bool) :
    ∃ l, tokenize ((if negative then ['-'] else []) ++ c :: r) = .ok l ∧
      literal? l.tokens = (numberLiteral? (c :: r) negative).map Json.Value.number := by
  cases negative with
  | false => exact ⟨_, h.lexemeAt.tokenize_eq, literal?_number rfl⟩
  | true =>
    have hgoes : ∀ d ∈ (c :: r).head?, Mark.minus.goesOn d = false := fun d hd =>
      Option.some.inj hd ▸ Mark.goesOn_of_isDigit (by decide) hc
    have hsign := piecesFrom_written (.mark .minus) hgoes 0 false none
    have hminus : (Lexeme.mark .minus).written = ['-'] := rfl
    have hnumber := h.lexemeAt.piecesFrom_eq (0 + width ['-']) false (some (.mark .minus))
    rw [List.append_nil, piecesFrom] at hnumber
    rw [hminus, hnumber] at hsign
    rw [if_pos rfl, tokenize, hsign]
    exact ⟨_, rfl, literal?_minus rfl rfl⟩

/-- The tokens of a number of JSON text are a literal. -/
theorem exists_tokenize_numeral (hn : n.WellFormed) (he : SpellsExponent n.exponent e) :
    ∃ l, tokenize (n.signText ++ n.magnitude e) = .ok l ∧
      literal? l.tokens = (numberLiteral? (n.magnitude e) n.negative).map Json.Value.number := by
  obtain ⟨d, ds, hds, hd⟩ := hn.whole_eq_cons
  have hends : EndsNumber [] := fun c hc => (Option.not_mem_none c hc).elim
  obtain ⟨c, r, hcons, hnumber⟩ := (isDecimal_magnitude hn he).exists_numberAt hends
  have hc : c.isDigit = true := by
    rw [Numeral.magnitude, hds] at hcons
    exact (List.cons.inj hcons).1 ▸ hd
  rw [hcons]
  exact exists_tokenize_signed hc hnumber n.negative

end Source

end CallContract
