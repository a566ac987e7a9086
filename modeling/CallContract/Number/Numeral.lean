/-!
# Numerals

The spelling of a number: sign, digits before the point, digits after it, and an exponent.
`Numeral.text` writes a numeral; `Numeral.scan?` cuts one off the start of a text, and refuses
a leading zero before other digits, a point without digits and an exponent without digits.
-/

namespace CallContract

/-- A number as it is spelled. -/
structure Numeral where
  negative : Bool
  whole : List Char
  fraction : Option (List Char)
  exponent : Option (Option Char × List Char)
deriving DecidableEq, Repr

namespace Numeral

/-- The text of a fraction. -/
def fractionText : Option (List Char) → List Char
  | none => []
  | some ds => '.' :: ds

/-- The text of an exponent. -/
def exponentText : Option (Option Char × List Char) → List Char
  | none => []
  | some (sign, ds) => 'e' :: (sign.toList ++ ds)

/-- The text of a numeral. -/
def text (n : Numeral) : List Char :=
  (if n.negative then ['-'] else []) ++ n.whole ++ fractionText n.fraction ++
    exponentText n.exponent

/-- Cuts a minus sign off the start of a text. -/
def minusPart : List Char → Bool × List Char
  | '-' :: s => (true, s)
  | s => (false, s)

/-- Cuts a sign off the start of a text. -/
def signPart : List Char → Option Char × List Char
  | '+' :: s => (some '+', s)
  | '-' :: s => (some '-', s)
  | s => (none, s)

/-- Cuts one or more digits off the start of a text. -/
def digitPart (s : List Char) : Option (List Char × List Char) :=
  if (s.takeWhile Char.isDigit).isEmpty then none
  else some (s.takeWhile Char.isDigit, s.dropWhile Char.isDigit)

/-- Cuts an exponent, if one is there, off the start of a text. -/
def exponentPart : List Char → Option (Option (Option Char × List Char) × List Char)
  | [] => some (none, [])
  | c :: s =>
    if c = 'e' ∨ c = 'E' then
      (digitPart (signPart s).2).map fun p => (some ((signPart s).1, p.1), p.2)
    else some (none, c :: s)

/-- Cuts a fraction, if one is there, off the start of a text. -/
def fractionPart : List Char → Option (Option (List Char) × List Char)
  | '.' :: s => (digitPart s).map fun p => (some p.1, p.2)
  | s => some (none, s)

/-- Cuts the digits before the point off the start of a text: a zero, or digits that do not
start with one. -/
def wholePart : List Char → Option (List Char × List Char)
  | '0' :: s => some (['0'], s)
  | s => digitPart s

/-- Cuts a number off the start of a text. -/
def scan? (s : List Char) : Option (Numeral × List Char) := do
  let (whole, r) ← wholePart (minusPart s).2
  let (fraction, r) ← fractionPart r
  let (exponent, r) ← exponentPart r
  some (⟨(minusPart s).1, whole, fraction, exponent⟩, r)

theorem length_minusPart (s : List Char) : (minusPart s).2.length ≤ s.length := by
  unfold minusPart
  split <;> simp

theorem length_signPart (s : List Char) : (signPart s).2.length ≤ s.length := by
  unfold signPart
  split <;> simp

theorem length_of_digitPart {s : List Char} {p : List Char × List Char}
    (h : digitPart s = some p) : p.2.length < s.length := by
  unfold digitPart at h
  split at h
  · cases h
  · rename_i hne
    cases h
    have hs : (s.takeWhile Char.isDigit).length + (s.dropWhile Char.isDigit).length
        = s.length := by
      rw [← List.length_append, List.takeWhile_append_dropWhile]
    have : (s.takeWhile Char.isDigit).length ≠ 0 := by simpa using hne
    simp only
    omega

theorem length_of_exponentPart {s : List Char}
    {p : Option (Option Char × List Char) × List Char} (h : exponentPart s = some p) :
    p.2.length ≤ s.length := by
  cases s with
  | nil => cases h; simp
  | cons c s =>
    rw [exponentPart] at h
    by_cases hc : c = 'e' ∨ c = 'E'
    · rw [if_pos hc] at h
      obtain ⟨q, hq, rfl⟩ := Option.map_eq_some_iff.mp h
      have h1 := length_of_digitPart hq
      have h2 := length_signPart s
      simp only [List.length_cons]
      omega
    · rw [if_neg hc] at h
      cases h
      simp

theorem length_of_fractionPart {s : List Char} {p : Option (List Char) × List Char}
    (h : fractionPart s = some p) : p.2.length ≤ s.length := by
  unfold fractionPart at h
  split at h
  · obtain ⟨q, hq, rfl⟩ := Option.map_eq_some_iff.mp h
    have := length_of_digitPart hq
    simp only [List.length_cons]
    omega
  · cases h; simp

theorem length_of_wholePart {s : List Char} {p : List Char × List Char}
    (h : wholePart s = some p) : p.2.length < s.length := by
  unfold wholePart at h
  split at h
  · cases h; simp
  · exact length_of_digitPart h

/-- A numeral takes at least one character. -/
theorem length_of_scan? {s : List Char} {p : Numeral × List Char} (h : scan? s = some p) :
    p.2.length < s.length := by
  simp only [scan?, Option.bind_eq_bind, Option.bind_eq_some_iff, Prod.exists] at h
  obtain ⟨w, r₁, h₁, f, r₂, h₂, e, r₃, h₃, h⟩ := h
  cases h
  have l₁ := length_of_wholePart h₁
  have l₂ := length_of_fractionPart h₂
  have l₃ := length_of_exponentPart h₃
  have l₀ := length_minusPart s
  simp only at l₁ l₂ l₃ ⊢
  omega

end Numeral

end CallContract
