import CallContract.Proofs.Prefix
import CallContract.Text.Blank
import Mathlib.Data.List.DropRight

/-!
# Trimming

Trimming a text stops at the first character from either end that is not white space
(`Text.trimStart_append_cons`, `Text.trimEnd_append_cons`), whatever stands between. A text without
white space at either end is left alone (`Text.Trimmed.trim_eq`).
-/

namespace CallContract.Text

variable {c : Char} {s a b : List Char}

theorem dropWhile_append_cons {p : Char → Bool} (hc : p c = false) :
    ∀ a b : List Char, (a ++ c :: b).dropWhile p = a.dropWhile p ++ c :: b
  | [], b => List.dropWhile_cons_of_neg (by simp [hc])
  | d :: a, b => by
    rw [List.cons_append, List.dropWhile_cons, List.dropWhile_cons, dropWhile_append_cons hc a b]
    split <;> rfl

theorem trimStart_append_cons (hc : isBlank c = false) (a b : List Char) :
    trimStart (a ++ c :: b) = trimStart a ++ c :: b :=
  dropWhile_append_cons hc a b

theorem trimEnd_append_cons (hc : isBlank c = false) (a b : List Char) :
    trimEnd (a ++ c :: b) = a ++ c :: trimEnd b := by
  rw [trimEnd, List.reverse_append, List.reverse_cons, List.append_assoc, List.singleton_append,
    dropWhile_append_cons hc]
  simp [trimEnd]

theorem trim_subset (s : List Char) : trim s ⊆ s := by
  intro c hc
  rw [trim, trimEnd, List.mem_reverse] at hc
  have hstart := List.mem_reverse.mp ((List.dropWhile_sublist _).subset hc)
  exact (List.dropWhile_sublist _).subset hstart

theorem isBlank_of_isDigit {c : Char} (h : c.isDigit = true) : isBlank c = false := by
  have hdigits : ∀ n : Fin 10, blankRanges.has (48 + n) = false := by decide
  obtain ⟨hlow, hhigh⟩ : 48 ≤ c.toNat ∧ c.toNat ≤ 57 := Char.isDigit_iff_toNat.mp h
  have hc := hdigits ⟨c.toNat - 48, by omega⟩
  rwa [Nat.add_sub_cancel' hlow] at hc

/-- A text that is neither empty nor starts or ends with white space. -/
structure Trimmed (s : List Char) : Prop where
  ne_nil : s ≠ []
  head : ∀ c ∈ s.head?, isBlank c = false
  last : ∀ c ∈ s.getLast?, isBlank c = false

/-- The end of such a text is left alone, whatever stands in front of it. -/
theorem Trimmed.trimEnd_append (h : Trimmed s) (a : List Char) : trimEnd (a ++ s) = a ++ s := by
  obtain ⟨t, c, rfl⟩ := List.eq_nil_or_concat s |>.resolve_left h.ne_nil
  have hc := h.last c (by simp)
  have := trimEnd_append_cons hc (a ++ t) []
  simpa [trimEnd] using this

theorem Trimmed.trimStart_eq (h : Trimmed s) : trimStart s = s := by
  obtain ⟨c, t, rfl⟩ := List.exists_cons_of_ne_nil h.ne_nil
  exact List.dropWhile_cons_of_neg (by simp [h.head c rfl])

theorem Trimmed.trim_eq (h : Trimmed s) : trim s = s := by
  rw [trim, h.trimStart_eq]
  exact h.trimEnd_append []

theorem trimmed_of_forall (hne : s ≠ []) (h : ∀ c ∈ s, isBlank c = false) : Trimmed s where
  ne_nil := hne
  head c hc := h c (List.mem_of_mem_head? hc)
  last c hc := h c (List.mem_of_mem_getLast? hc)

theorem trim_of_forall (h : ∀ c ∈ s, isBlank c = false) : trim s = s := by
  rcases eq_or_ne s [] with rfl | hne
  · rfl
  · exact (trimmed_of_forall hne h).trim_eq

theorem length_trimEnd_le (s : List Char) : (trimEnd s).length ≤ s.length := by
  have hle := (List.dropWhile_sublist (l := s.reverse) isBlank).length_le
  rw [List.length_reverse] at hle
  rwa [trimEnd, List.length_reverse]

/-- What trimming leaves alone is empty, or has no white space at either end. -/
theorem trim_eq_self_iff : trim s = s ↔ s = [] ∨ Trimmed s := by
  constructor
  · intro h
    by_cases hs : s = []
    · exact Or.inl hs
    have hlength : s.length ≤ (trimStart s).length := by
      have := length_trimEnd_le (trimStart s)
      rwa [← trim, h] at this
    have hstart : s.dropWhile isBlank = s := (List.dropWhile_suffix _).eq_of_length_le hlength
    have hend : s.reverse.dropWhile isBlank = s.reverse := by
      rw [trim, trimStart, hstart, trimEnd] at h
      exact List.reverse_eq_iff.mp h
    refine Or.inr ⟨hs, fun c hc => ?_, fun c hc => ?_⟩
    · have := List.head?_dropWhile_not isBlank s
      rw [hstart, hc] at this
      simpa using this
    · have := List.head?_dropWhile_not isBlank s.reverse
      rw [hend, List.head?_reverse, hc] at this
      simpa using this
  · rintro (rfl | h)
    · rfl
    · exact h.trim_eq

theorem trimStart_eq_self (h : trim s = s) : trimStart s = s := by
  rcases trim_eq_self_iff.mp h with rfl | h
  · rfl
  · exact h.trimStart_eq

/-- Two texts that trimming leaves alone, and a character that is not white space between them. -/
theorem trim_append_cons (hc : isBlank c = false) (ha : trim a = a) (hb : trim b = b) :
    trim (a ++ c :: b) = a ++ c :: b := by
  have hend : trimEnd b = b := by
    rcases trim_eq_self_iff.mp hb with rfl | hb
    · rfl
    · exact hb.trimEnd_append []
  rw [trim, trimStart_append_cons hc, trimEnd_append_cons hc, trimStart_eq_self ha, hend]

theorem trimStart_eq_nil (h : ∀ c ∈ s, isBlank c = true) : trimStart s = [] :=
  List.dropWhile_eq_nil_iff.mpr h

theorem trimEnd_eq_nil (h : ∀ c ∈ s, isBlank c = true) : trimEnd s = [] := by
  have hreverse : s.reverse.dropWhile isBlank = [] :=
    List.dropWhile_eq_nil_iff.mpr fun c hc => h c (List.mem_reverse.mp hc)
  rw [trimEnd, hreverse, List.reverse_nil]

/-- White space around a text is trimmed, and no more. -/
theorem Trimmed.trim_append (h : Trimmed s) (ha : ∀ c ∈ a, isBlank c = true)
    (hb : ∀ c ∈ b, isBlank c = true) : trim (a ++ s ++ b) = s := by
  have hstart : trimStart (a ++ s ++ b) = s ++ b := by
    obtain ⟨c, t, rfl⟩ := List.exists_cons_of_ne_nil h.ne_nil
    rw [List.append_assoc, List.cons_append, trimStart_append_cons (h.head c rfl),
      trimStart_eq_nil ha, List.nil_append]
  have hend : trimEnd (s ++ b) = s := by
    obtain ⟨t, c, rfl⟩ := List.eq_nil_or_concat s |>.resolve_left h.ne_nil
    rw [List.concat_eq_append, List.append_assoc, List.singleton_append,
      trimEnd_append_cons (h.last c (by simp)), trimEnd_eq_nil hb]
  rw [trim, hstart, hend]

/-- What is trimmed at the end of a text is white space. -/
theorem exists_trimEnd_append (s : List Char) :
    ∃ b, s = trimEnd s ++ b ∧ ∀ c ∈ b, isBlank c = true := by
  refine ⟨(s.reverse.takeWhile isBlank).reverse, ?_, fun c hc => ?_⟩
  · rw [trimEnd, ← List.reverse_append, List.takeWhile_append_dropWhile, List.reverse_reverse]
  · exact List.all_eq_true.mp List.all_takeWhile c (List.mem_reverse.mp hc)

/-- White space at the end is trimmed with the rest. -/
theorem trim_trimEnd (s : List Char) : trim (trimEnd s) = trim s := by
  by_cases h : ∀ c ∈ s, isBlank c = true
  · rw [trimEnd_eq_nil h, trim, trim, trimStart_eq_nil h]
    rfl
  · obtain ⟨c, hmem, hc⟩ : ∃ c ∈ s, isBlank c = false := by simpa using h
    obtain ⟨a, b, rfl⟩ := List.append_of_mem hmem
    rw [trimEnd_append_cons hc, trim, trim, trimStart_append_cons hc, trimStart_append_cons hc,
      trimEnd_append_cons hc, trimEnd_append_cons hc, trimEnd, trimEnd, List.reverse_reverse,
      List.dropWhile_idempotent]

theorem trim_trim (s : List Char) : trim (trim s) = trim s :=
  (trim_trimEnd (trimStart s)).trans (congrArg trimEnd (List.dropWhile_idempotent ..))

/-- The front of a text without white space at its start does not start with white space. -/
theorem Trimmed.trimStart_of_append (h : Trimmed (a ++ s)) : trimStart a = a := by
  cases a with
  | nil => rfl
  | cons c a => exact List.dropWhile_cons_of_neg (by simp [h.head c rfl])

/-- A text without white space at its end does not end in white space. -/
theorem Trimmed.eq_nil_of_append (h : Trimmed (a ++ s)) (hs : ∀ c ∈ s, isBlank c = true) :
    s = [] := by
  rcases List.eq_nil_or_concat s with rfl | ⟨t, c, rfl⟩
  · rfl
  · have hblank := hs c (by simp)
    rw [h.last c (by simp)] at hblank
    cases hblank

end CallContract.Text
