import CallContract.Number.Numeral
import CallContract.Text.Integer

/-!
# Numerals are read back

A well-formed numeral (`Numeral.WellFormed`) is cut off the start of a text again if no digit,
point or exponent follows it (`Numeral.scan?_text`). What is cut off a text is a well-formed numeral
that the text starts with, but for the case of the letter of its exponent
(`Numeral.wellFormed_of_scan?`).
-/

namespace CallContract

/-! ## Digits -/

/-- One or more digits. -/
def IsDigits (ds : List Char) : Prop := ds ≠ [] ∧ ∀ c ∈ ds, c.isDigit = true

theorem isDigits_toDigits (n : Nat) : IsDigits (Nat.toDigits 10 n) :=
  ⟨Nat.toDigits_ne_nil, fun _ hc => Nat.isDigit_of_mem_toDigits (by omega) (by omega) hc⟩

theorem IsDigits.append {ds es : List Char} (hd : IsDigits ds) (he : ∀ c ∈ es, c.isDigit = true) :
    IsDigits (ds ++ es) :=
  ⟨fun h => hd.1 (List.append_eq_nil_iff.mp h).1, fun c hc =>
    (List.mem_append.mp hc).elim (hd.2 c) (he c)⟩

theorem IsDigits.drop {ds : List Char} (hd : IsDigits ds) {n : Nat} (hn : n < ds.length) :
    IsDigits (ds.drop n) :=
  ⟨fun h => by have := List.drop_eq_nil_iff.mp h; omega,
    fun c hc => hd.2 c (List.mem_of_mem_drop hc)⟩

theorem IsDigits.take {ds : List Char} (hd : IsDigits ds) {n : Nat} (hn : 0 < n) :
    IsDigits (ds.take n) :=
  ⟨fun h => (List.take_eq_nil_iff.mp h).elim (by omega) hd.1,
    fun c hc => hd.2 c (List.mem_of_mem_take hc)⟩

/-- The digits of a number other than zero do not start with a zero. -/
theorem head?_toDigits {n : Nat} (hn : 0 < n) : (Nat.toDigits 10 n).head? ≠ some '0' := by
  induction n using Nat.strongRecOn with
  | ind n ih =>
    rw [Nat.toDigits_eq_if (by omega)]
    split
    · rename_i hlt
      have hall : ∀ m < 10, 0 < m → ([Nat.digitChar m] : List Char).head? ≠ some '0' := by decide
      exact hall n hlt hn
    · have hdiv := ih (n / 10) (by omega) (by omega)
      obtain ⟨c, cs, hcs⟩ :=
        List.exists_cons_of_ne_nil (Nat.toDigits_ne_nil (n := n / 10) (b := 10))
      rw [hcs] at hdiv ⊢
      exact hdiv

namespace Text

theorem naturalFrom?_of_isDigit : ∀ {ds : List Char} {n : Nat}, (∀ c ∈ ds, c.isDigit = true) →
    naturalFrom? 10 n ds = some (Nat.ofDigitChars 10 ds n)
  | [], _, _ => rfl
  | c :: ds, n, h => by
    obtain ⟨hc, hds⟩ := List.forall_mem_cons.mp h
    have hvalue : digitValue? 10 c = some (c.toNat - 48) := by
      have hle : c.toNat - 48 < 10 := by
        simp only [Char.isDigit, Bool.and_eq_true, decide_eq_true_eq, UInt32.le_iff_toNat_le] at hc
        have : c.toNat ≤ 57 := hc.2
        omega
      rw [digitValue?, if_pos hc, if_pos hle]
    rw [naturalFrom?, hvalue, Option.bind_some, naturalFrom?_of_isDigit hds,
      Nat.ofDigitChars_cons, Nat.mul_comm]
    rfl

/-- Digits spell a number. -/
theorem natural?_of_isDigits {ds : List Char} (h : IsDigits ds) :
    natural? 10 ds = some (Nat.ofDigitChars 10 ds 0) := by
  rw [natural?, if_neg (by simpa using h.1), naturalFrom?_of_isDigit h.2]

end Text

/-- A text at whose start no digits go on. -/
def NoDigit (r : List Char) : Prop := ∀ c ∈ r.head?, c.isDigit = false

theorem takeWhile_isDigit {ds r : List Char} (hd : ∀ c ∈ ds, c.isDigit = true) (hr : NoDigit r) :
    (ds ++ r).takeWhile Char.isDigit = ds := by
  rw [List.takeWhile_append_of_pos hd]
  cases r with
  | nil => exact List.append_nil ds
  | cons c r => rw [List.takeWhile_cons_of_neg (by simp [hr c rfl]), List.append_nil]

theorem dropWhile_isDigit {ds r : List Char} (hd : ∀ c ∈ ds, c.isDigit = true) (hr : NoDigit r) :
    (ds ++ r).dropWhile Char.isDigit = r := by
  rw [List.dropWhile_append_of_pos hd]
  cases r with
  | nil => rfl
  | cons c r => rw [List.dropWhile_cons_of_neg (by simp [hr c rfl])]

namespace Numeral

theorem digitPart_append {ds r : List Char} (hd : IsDigits ds) (hr : NoDigit r) :
    digitPart (ds ++ r) = some (ds, r) := by
  rw [digitPart, takeWhile_isDigit hd.2 hr, dropWhile_isDigit hd.2 hr,
    if_neg (by simpa using hd.1)]

/-- A numeral as the reader takes it. -/
structure WellFormed (n : Numeral) : Prop where
  whole : n.whole = ['0'] ∨ IsDigits n.whole ∧ n.whole.head? ≠ some '0'
  fraction : ∀ ds ∈ n.fraction, IsDigits ds
  exponent : ∀ e ∈ n.exponent, IsDigits e.2 ∧ ∀ c ∈ e.1, c = '+' ∨ c = '-'

/-- A text that goes on with nothing that a numeral could take. -/
def Ends (r : List Char) : Prop :=
  ∀ c ∈ r.head?, c.isDigit = false ∧ c ≠ '.' ∧ c ≠ 'e' ∧ c ≠ 'E'

theorem Ends.noDigit {r : List Char} (h : Ends r) : NoDigit r := fun c hc => (h c hc).1

theorem exponentPart_of_ends {r : List Char} (h : Ends r) : exponentPart r = some (none, r) := by
  cases r with
  | nil => rfl
  | cons c r =>
    obtain ⟨_, _, he, hE⟩ := h c rfl
    rw [exponentPart, if_neg (by simp [he, hE])]

theorem isDigit_head_of_isDigits {ds : List Char} (h : IsDigits ds) :
    ∃ c cs, ds = c :: cs ∧ c.isDigit = true := by
  cases ds with
  | nil => exact absurd rfl h.1
  | cons c cs => exact ⟨c, cs, rfl, h.2 c List.mem_cons_self⟩

theorem signPart_digits {ds r : List Char} (h : IsDigits ds) :
    signPart (ds ++ r) = (none, ds ++ r) := by
  obtain ⟨c, cs, rfl, hc⟩ := isDigit_head_of_isDigits h
  rw [List.cons_append, signPart]
  all_goals
    intro s hs
    obtain ⟨rfl, _⟩ := List.cons.inj hs
    exact absurd hc (by simp)

theorem exponentPart_text {e : Option (Option Char × List Char)} {r : List Char}
    (he : ∀ p ∈ e, IsDigits p.2 ∧ ∀ c ∈ p.1, c = '+' ∨ c = '-') (hr : Ends r) :
    exponentPart (exponentText e ++ r) = some (e, r) := by
  cases e with
  | none => exact exponentPart_of_ends hr
  | some p =>
    obtain ⟨sign, ds⟩ := p
    obtain ⟨hds, hsign⟩ := he _ rfl
    have hpart : signPart (sign.toList ++ ds ++ r) = (sign, ds ++ r) := by
      cases sign with
      | none => exact signPart_digits hds
      | some c => rcases hsign c rfl with rfl | rfl <;> rfl
    rw [exponentText, List.cons_append, exponentPart, if_pos (Or.inl rfl), hpart,
      digitPart_append hds hr.noDigit]
    rfl

theorem noDigit_exponentText {e : Option (Option Char × List Char)} {r : List Char}
    (hr : Ends r) : NoDigit (exponentText e ++ r) := by
  cases e with
  | none => exact hr.noDigit
  | some p =>
    intro c hc
    obtain rfl : 'e' = c := by simpa [exponentText] using hc
    decide

theorem fractionPart_text {f : Option (List Char)} {e : Option (Option Char × List Char)}
    {r : List Char} (hf : ∀ ds ∈ f, IsDigits ds) (hr : Ends r) :
    fractionPart (fractionText f ++ (exponentText e ++ r)) = some (f, exponentText e ++ r) := by
  cases f with
  | some ds =>
    rw [fractionText, List.cons_append, fractionPart,
      digitPart_append (hf ds rfl) (noDigit_exponentText hr)]
    rfl
  | none =>
    rw [fractionText, List.nil_append, fractionPart]
    intro s hs
    cases e with
    | some p => simp [exponentText] at hs
    | none =>
      have := hr '.' (by rw [exponentText, List.nil_append] at hs; rw [hs]; rfl)
      exact this.2.1 rfl

theorem noDigit_fractionText {f : Option (List Char)} {e : Option (Option Char × List Char)}
    {r : List Char} (hr : Ends r) : NoDigit (fractionText f ++ (exponentText e ++ r)) := by
  cases f with
  | none => exact noDigit_exponentText hr
  | some ds =>
    intro c hc
    obtain rfl : '.' = c := by simpa [fractionText] using hc
    decide

theorem WellFormed.whole_eq_cons {n : Numeral} (h : n.WellFormed) :
    ∃ c cs, n.whole = c :: cs ∧ c.isDigit = true := by
  rcases h.whole with hw | ⟨hw, _⟩
  · exact ⟨'0', [], hw, by decide⟩
  · exact isDigit_head_of_isDigits hw

/-- A numeral starts with a minus sign or a digit. -/
theorem text_eq_cons {n : Numeral} (h : n.WellFormed) :
    ∃ c s, n.text = c :: s ∧ (c = '-' ∨ c.isDigit = true) := by
  obtain ⟨c, cs, hcs, hc⟩ := h.whole_eq_cons
  rw [text, hcs]
  cases n.negative with
  | true => exact ⟨'-', _, rfl, Or.inl rfl⟩
  | false => exact ⟨c, _, rfl, Or.inr hc⟩

/-- A well-formed numeral is cut off the text that it starts. -/
theorem scan?_text {n : Numeral} {r : List Char} (h : n.WellFormed) (hr : Ends r) :
    scan? (n.text ++ r) = some (n, r) := by
  obtain ⟨negative, whole, fraction, exponent⟩ := n
  have hrest := noDigit_fractionText (f := fraction) (e := exponent) hr
  have hwhole : wholePart (whole ++ (fractionText fraction ++ (exponentText exponent ++ r))) =
      some (whole, fractionText fraction ++ (exponentText exponent ++ r)) := by
    rcases h.whole with hw | ⟨hw, hzero⟩
    · simp only at hw
      rw [hw]
      rfl
    · obtain ⟨c, cs, hcs, _⟩ := isDigit_head_of_isDigits hw
      have hpart := digitPart_append hw hrest
      simp only at hcs hzero hpart
      rw [hcs] at hpart hzero ⊢
      rw [List.cons_append] at hpart ⊢
      rw [wholePart, hpart]
      intro s hs
      exact hzero (congrArg some (List.cons.inj hs).1)
  have hminus : minusPart ((if negative then ['-'] else []) ++
      (whole ++ (fractionText fraction ++ (exponentText exponent ++ r)))) =
      (negative, whole ++ (fractionText fraction ++ (exponentText exponent ++ r))) := by
    cases negative with
    | true => rfl
    | false =>
      obtain ⟨c, cs, hcs, hc⟩ := h.whole_eq_cons
      simp only at hcs
      rw [if_neg Bool.false_ne_true, List.nil_append, hcs, List.cons_append, minusPart]
      intro s hs
      obtain ⟨rfl, _⟩ := List.cons.inj hs
      exact absurd hc (by simp)
  simp only [text, List.append_assoc]
  simp only [scan?, Option.bind_eq_bind, hminus, hwhole, Option.bind_some,
    fractionPart_text h.fraction hr, exponentPart_text h.exponent hr]

/-! ## What is cut off -/

/-- `SpellsExponent e s` : the text `s` spells the exponent `e`, its letter being of either case. -/
inductive SpellsExponent : Option (Option Char × List Char) → List Char → Prop
  | none : SpellsExponent none []
  | some {letter : Char} {sign : Option Char} {ds : List Char} : letter = 'e' ∨ letter = 'E' →
    SpellsExponent (some (sign, ds)) (letter :: (sign.toList ++ ds))

/-- The text of a numeral without its sign, the exponent being spelled by `exponent`. -/
def magnitude (n : Numeral) (exponent : List Char) : List Char :=
  n.whole ++ (fractionText n.fraction ++ exponent)

/-- The text of the sign of a numeral. -/
def signText (n : Numeral) : List Char := if n.negative then ['-'] else []

variable {s r ds : List Char}

theorem isDigits_of_digitPart (h : digitPart s = some (ds, r)) : IsDigits ds ∧ s = ds ++ r := by
  unfold digitPart at h
  split at h
  · cases h
  · rename_i hne
    obtain ⟨rfl, rfl⟩ := Prod.mk.inj (Option.some.inj h)
    exact ⟨⟨by simpa using hne, fun c hc => List.all_eq_true.mp List.all_takeWhile c hc⟩,
      List.takeWhile_append_dropWhile.symm⟩

theorem isDigits_of_wholePart (h : wholePart s = some (ds, r)) :
    (ds = ['0'] ∨ IsDigits ds ∧ ds.head? ≠ some '0') ∧ s = ds ++ r := by
  unfold wholePart at h
  split at h
  · obtain ⟨rfl, rfl⟩ := Prod.mk.inj (Option.some.inj h)
    exact ⟨Or.inl rfl, rfl⟩
  · rename_i hzero
    obtain ⟨hds, rfl⟩ := isDigits_of_digitPart h
    refine ⟨Or.inr ⟨hds, fun hhead => ?_⟩, rfl⟩
    obtain ⟨t, rfl⟩ := List.head?_eq_some_iff.mp hhead
    exact hzero _ rfl

theorem isDigits_of_fractionPart {f : Option (List Char)} (h : fractionPart s = some (f, r)) :
    (∀ ds ∈ f, IsDigits ds) ∧ s = fractionText f ++ r := by
  unfold fractionPart at h
  split at h
  · obtain ⟨⟨ds, t⟩, hp, heq⟩ := Option.map_eq_some_iff.mp h
    obtain ⟨rfl, rfl⟩ := Prod.mk.inj heq
    obtain ⟨hds, rfl⟩ := isDigits_of_digitPart hp
    exact ⟨fun es hes => Option.some.inj hes ▸ hds, rfl⟩
  · obtain ⟨rfl, rfl⟩ := Prod.mk.inj (Option.some.inj h)
    exact ⟨fun es hes => (Option.not_mem_none _ hes).elim, rfl⟩

theorem append_signPart (s : List Char) : s = (signPart s).1.toList ++ (signPart s).2 ∧
    ∀ c ∈ (signPart s).1, c = '+' ∨ c = '-' := by
  unfold signPart
  split
  · exact ⟨rfl, fun c hc => Or.inl (Option.some.inj hc).symm⟩
  · exact ⟨rfl, fun c hc => Or.inr (Option.some.inj hc).symm⟩
  · exact ⟨rfl, fun c hc => (Option.not_mem_none _ hc).elim⟩

theorem spellsExponent_of_exponentPart {e : Option (Option Char × List Char)}
    (h : exponentPart s = some (e, r)) :
    (∀ p ∈ e, IsDigits p.2 ∧ ∀ c ∈ p.1, c = '+' ∨ c = '-') ∧
      ∃ t, SpellsExponent e t ∧ s = t ++ r := by
  cases s with
  | nil =>
    obtain ⟨rfl, rfl⟩ := Prod.mk.inj (Option.some.inj h)
    exact ⟨fun p hp => (Option.not_mem_none _ hp).elim, [], .none, rfl⟩
  | cons c s =>
    rw [exponentPart] at h
    split at h
    · rename_i hc
      obtain ⟨⟨ds, t⟩, hp, heq⟩ := Option.map_eq_some_iff.mp h
      obtain ⟨rfl, rfl⟩ := Prod.mk.inj heq
      obtain ⟨hds, hrest⟩ := isDigits_of_digitPart hp
      obtain ⟨hs, hsign⟩ := append_signPart s
      refine ⟨fun p hp => Option.some.inj hp ▸ ⟨hds, hsign⟩, _, .some hc, ?_⟩
      rw [List.cons_append, List.append_assoc, ← hrest, ← hs]
    · obtain ⟨rfl, rfl⟩ := Prod.mk.inj (Option.some.inj h)
      exact ⟨fun p hp => (Option.not_mem_none _ hp).elim, [], .none, rfl⟩

theorem append_minusPart (s : List Char) :
    s = (if (minusPart s).1 then ['-'] else []) ++ (minusPart s).2 := by
  unfold minusPart
  split <;> rfl

/-- What is cut off a text is a well-formed numeral that the text starts with. -/
theorem wellFormed_of_scan? {n : Numeral} (h : scan? s = some (n, r)) : n.WellFormed ∧
    ∃ exponent, SpellsExponent n.exponent exponent ∧
      s = n.signText ++ (n.magnitude exponent ++ r) := by
  simp only [scan?, Option.bind_eq_bind, Option.bind_eq_some_iff, Prod.exists] at h
  obtain ⟨w, r₁, h₁, f, r₂, h₂, e, r₃, h₃, h⟩ := h
  obtain ⟨rfl, rfl⟩ := Prod.mk.inj (Option.some.inj h)
  obtain ⟨hw, hs⟩ := isDigits_of_wholePart h₁
  obtain ⟨hf, rfl⟩ := isDigits_of_fractionPart h₂
  obtain ⟨he, t, ht, rfl⟩ := spellsExponent_of_exponentPart h₃
  refine ⟨⟨hw, hf, he⟩, t, ht, ?_⟩
  rw [magnitude, List.append_assoc, List.append_assoc, ← hs]
  exact append_minusPart s

end Numeral

end CallContract
