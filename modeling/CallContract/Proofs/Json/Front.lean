import CallContract.Proofs.Json.Spelling
import Mathlib

/-!
# What is read off the front of a text

Reading stops behind what it has read, and what is there makes no difference
(`Node.cut?_append`), but for a numeral, which goes on as far as it can (`Numeral.scan?_append`).
So no text of a node goes on to another one behind a bracket or a comma : a text that is read as a
whole is not read as the front of a longer one.
-/

namespace CallContract

namespace Numeral

variable {s r t ds : List Char}

theorem NoDigit.append (hr : NoDigit r) (ht : NoDigit t) : NoDigit (r ++ t) := by
  cases r with
  | nil => exact ht
  | cons c r => exact hr

theorem noDigit_of_digitPart (h : digitPart s = some (ds, r)) : NoDigit r := by
  unfold digitPart at h
  split at h
  · cases h
  · obtain ⟨-, rfl⟩ := Prod.mk.inj (Option.some.inj h)
    intro c hc
    have hhead := List.head?_dropWhile_not Char.isDigit s
    rw [hc] at hhead
    simpa using hhead

/-- Digits end where they ended, if what follows the text is no digit. -/
theorem digitPart_append_right (h : digitPart s = some (ds, r)) (ht : NoDigit t) :
    digitPart (s ++ t) = some (ds, r ++ t) := by
  obtain ⟨hds, rfl⟩ := isDigits_of_digitPart h
  rw [List.append_assoc]
  exact digitPart_append hds (NoDigit.append (noDigit_of_digitPart h) ht)

theorem minusPart_append (hs : s ≠ []) :
    minusPart (s ++ t) = ((minusPart s).1, (minusPart s).2 ++ t) := by
  obtain ⟨c, s, rfl⟩ := List.exists_cons_of_ne_nil hs
  by_cases hc : c = '-'
  · subst hc
    rfl
  · simp [minusPart, hc]

theorem signPart_append (hs : s ≠ []) :
    signPart (s ++ t) = ((signPart s).1, (signPart s).2 ++ t) := by
  obtain ⟨c, s, rfl⟩ := List.exists_cons_of_ne_nil hs
  by_cases hplus : c = '+'
  · subst hplus
    rfl
  by_cases hminus : c = '-'
  · subst hminus
    rfl
  · simp [signPart, hplus, hminus]

theorem wholePart_append (h : wholePart s = some (ds, r)) (ht : NoDigit t) :
    wholePart (s ++ t) = some (ds, r ++ t) := by
  unfold wholePart at h
  split at h
  · obtain ⟨rfl, rfl⟩ := Prod.mk.inj (Option.some.inj h)
    rfl
  · rename_i hzero
    rw [wholePart, digitPart_append_right h ht]
    intro u hu
    obtain ⟨⟨hne, -⟩, hs⟩ := isDigits_of_digitPart h
    obtain ⟨c, cs, rfl⟩ := List.exists_cons_of_ne_nil hne
    rw [hs] at hu hzero
    exact hzero _ (congrArg (· :: (cs ++ r)) (List.cons.inj hu).1)

theorem fractionPart_append {f : Option (List Char)} (h : fractionPart s = some (f, r))
    (ht : Ends t) : fractionPart (s ++ t) = some (f, r ++ t) := by
  unfold fractionPart at h
  split at h
  · obtain ⟨⟨ds, u⟩, hp, heq⟩ := Option.map_eq_some_iff.mp h
    obtain ⟨rfl, rfl⟩ := Prod.mk.inj heq
    rw [List.cons_append, fractionPart, digitPart_append_right hp ht.noDigit]
    rfl
  · rename_i hpoint
    obtain ⟨rfl, rfl⟩ := Prod.mk.inj (Option.some.inj h)
    rw [fractionPart]
    intro u hu
    cases s with
    | nil => exact (ht '.' (by rw [List.nil_append] at hu; rw [hu]; rfl)).2.1 rfl
    | cons c s => exact hpoint s (congrArg (· :: s) (List.cons.inj hu).1)

theorem exponentPart_append {e : Option (Option Char × List Char)}
    (h : exponentPart s = some (e, r)) (ht : Ends t) :
    exponentPart (s ++ t) = some (e, r ++ t) := by
  cases s with
  | nil =>
    obtain ⟨rfl, rfl⟩ := Prod.mk.inj (Option.some.inj h)
    exact exponentPart_of_ends ht
  | cons c s =>
    rw [exponentPart] at h
    rw [List.cons_append, exponentPart]
    split at h
    · rename_i hc
      obtain ⟨⟨ds, u⟩, hp, heq⟩ := Option.map_eq_some_iff.mp h
      obtain ⟨rfl, rfl⟩ := Prod.mk.inj heq
      have hne : s ≠ [] := by
        rintro rfl
        cases hp
      rw [if_pos hc, signPart_append hne, digitPart_append_right hp ht.noDigit]
      rfl
    · rename_i hc
      obtain ⟨rfl, rfl⟩ := Prod.mk.inj (Option.some.inj h)
      rw [if_neg hc, List.cons_append]

/-- A numeral ends where it ended, if what follows the text is nothing that it could take. -/
theorem scan?_append {n : Numeral} (h : scan? s = some (n, r)) (ht : Ends t) :
    scan? (s ++ t) = some (n, r ++ t) := by
  have hne : s ≠ [] := by
    rintro rfl
    cases h
  simp only [scan?, Option.bind_eq_bind, Option.bind_eq_some_iff, Prod.exists] at h
  obtain ⟨w, r₁, h₁, f, r₂, h₂, e, r₃, h₃, h⟩ := h
  obtain ⟨rfl, rfl⟩ := Prod.mk.inj (Option.some.inj h)
  simp only [scan?, minusPart_append hne, wholePart_append h₁ ht.noDigit, fractionPart_append h₂ ht,
    exponentPart_append h₃ ht, Option.bind_eq_bind, Option.bind_some]

theorem head_of_scan? {n : Numeral} (h : scan? s = some (n, r)) :
    ∃ c u, s = c :: u ∧ (c = '-' ∨ c.isDigit = true) := by
  obtain ⟨hn, exponent, -, hs⟩ := wellFormed_of_scan? h
  obtain ⟨c, cs, hwhole, hc⟩ := hn.whole_eq_cons
  cases hsign : n.negative with
  | true => exact ⟨'-', _, by rw [hs, signText, hsign]; rfl, Or.inl rfl⟩
  | false => exact ⟨c, _, by rw [hs, signText, hsign, magnitude, hwhole]; rfl, Or.inr hc⟩

end Numeral

namespace Json

variable {s r t : List Char} {c : Char}

theorem skipSpace_append_of_eq_cons {u : List Char} (h : skipSpace s = c :: u) (t : List Char) :
    skipSpace (s ++ t) = c :: (u ++ t) := by
  have hspace : (s.dropWhile isSpace).isEmpty = false := by
    rw [skipSpace] at h
    rw [h]
    rfl
  rw [skipSpace, List.dropWhile_append, if_neg (by simp [hspace]), ← skipSpace, h, List.cons_append]

theorem scanQuoted_append {p : List Char × List Char} (h : scanQuoted s = some p) (t : List Char) :
    scanQuoted (s ++ t) = some (p.1, p.2 ++ t) := by
  fun_induction scanQuoted s generalizing p with
  | case1 => cases h
  | case2 s =>
    obtain rfl := Option.some.inj h
    rfl
  | case3 => cases h
  | case4 a b c d s u hu ih =>
    obtain ⟨q, hq, rfl⟩ := Option.map_eq_some_iff.mp h
    simp only [List.cons_append]
    rw [scanQuoted, hu]
    simp only [ih hq, Option.map_some]
  | case5 => cases h
  | case6 e s hunit d hd ih =>
    obtain ⟨q, hq, rfl⟩ := Option.map_eq_some_iff.mp h
    have he : e ≠ 'u' := by
      rintro rfl
      cases hd
    rw [List.cons_append, List.cons_append, scanQuoted, hd]
    · simp only [ih hq, Option.map_some]
    · exact fun a b c d s heq _ => he heq
  | case7 => cases h
  | case8 c s hquote hunit hescape hc ih =>
    obtain ⟨q, hq, rfl⟩ := Option.map_eq_some_iff.mp h
    rw [not_or] at hc
    rw [List.cons_append, scanQuoted, if_neg (not_or.mpr hc), ih hq]
    · rfl
    · exact hquote
    · exact fun _ _ _ _ _ h _ => hc.1 h
    · exact fun _ _ h _ => hc.1 h

namespace Node

theorem length_of_cut? {n : Node} (h : cut? s = some (n, r)) : r.length < s.length := by
  obtain ⟨⟨m, u, hu⟩, -, heq⟩ := Option.map_eq_some_iff.mp h
  obtain ⟨-, rfl⟩ := Prod.mk.inj heq
  exact hu

theorem skipSpace_of_cut? {p : Node × List Char} (h : cut? s = some p) :
    ∃ c u, skipSpace s = c :: u := by
  cases hs : skipSpace s with
  | nil =>
    rw [cut?_eq, hs] at h
    cases h
  | cons c u => exact ⟨c, u, rfl⟩

theorem skipSpace_of_cutItems? {p : List Node × List Char} (h : cutItems? s = some p) :
    ∃ c u, skipSpace s = c :: u := by
  rw [cutItems?_eq] at h
  obtain ⟨q, hq, -⟩ := Option.bind_eq_some_iff.mp h
  exact skipSpace_of_cut? hq

theorem skipSpace_of_cutFields? {p : List (List Char × Node) × List Char}
    (h : cutFields? s = some p) : ∃ u, skipSpace s = '"' :: u := by
  rw [cutFields?_eq] at h
  split at h
  · exact ⟨_, ‹_›⟩
  · cases h

mutual

/-- A node that is read off the front of a text is read off the text with something behind it. -/
theorem cut?_append : ∀ {s r : List Char} {n : Node}, cut? s = some (n, r) → Numeral.Ends t →
    cut? (s ++ t) = some (n, r ++ t)
  | s, r, n, h, ht => by
    rw [cut?_eq] at h
    split at h
    case h_1 u hs | h_2 u hs | h_3 u hs =>
      obtain ⟨rfl, rfl⟩ := Prod.mk.inj (Option.some.inj h)
      rw [cut?_eq, skipSpace_append_of_eq_cons hs t]
      rfl
    case h_4 u hs =>
      obtain ⟨q, hq, heq⟩ := Option.map_eq_some_iff.mp h
      obtain ⟨rfl, rfl⟩ := Prod.mk.inj heq
      rw [cut?_eq, skipSpace_append_of_eq_cons hs t]
      simp only [scanQuoted_append hq t, Option.map_some]
    case h_5 u hs =>
      have hu : u.length < s.length := length_lt_of_skipSpace hs (by simp)
      rw [cut?_eq, skipSpace_append_of_eq_cons hs t]
      split at h
      · rename_i v hclose
        obtain ⟨rfl, rfl⟩ := Prod.mk.inj (Option.some.inj h)
        simp only [skipSpace_append_of_eq_cons hclose t]
      · rename_i hopen
        obtain ⟨⟨ns, v⟩, hns, heq⟩ := Option.map_eq_some_iff.mp h
        obtain ⟨rfl, rfl⟩ := Prod.mk.inj heq
        obtain ⟨c, w, hc⟩ := skipSpace_of_cutItems? hns
        have hne : c ≠ ']' := fun hcw => hopen w (by rw [hc, hcw])
        simp only [skipSpace_append_of_eq_cons hc t, cutItems?_append hns ht, Option.map_some]
        split
        · rename_i heq
          exact absurd (List.cons.inj heq).1 hne
        · rfl
    case h_6 u hs =>
      have hu : u.length < s.length := length_lt_of_skipSpace hs (by simp)
      rw [cut?_eq, skipSpace_append_of_eq_cons hs t]
      split at h
      · rename_i v hclose
        obtain ⟨rfl, rfl⟩ := Prod.mk.inj (Option.some.inj h)
        simp only [skipSpace_append_of_eq_cons hclose t]
      · obtain ⟨⟨fs, v⟩, hfs, heq⟩ := Option.map_eq_some_iff.mp h
        obtain ⟨rfl, rfl⟩ := Prod.mk.inj heq
        obtain ⟨w, hw⟩ := skipSpace_of_cutFields? hfs
        simp only [skipSpace_append_of_eq_cons hw t, cutFields?_append hfs ht, Option.map_some]
        rfl
    case h_7 =>
      obtain ⟨⟨m, v⟩, hm, heq⟩ := Option.map_eq_some_iff.mp h
      obtain ⟨rfl, rfl⟩ := Prod.mk.inj heq
      obtain ⟨c, u, hs, hc⟩ := Numeral.head_of_scan? hm
      have hscan := Numeral.scan?_append hm ht
      rw [hs, List.cons_append] at hscan
      rw [cut?_of_numeral (skipSpace_append_of_eq_cons hs t) hc, hscan, Option.map_some]
termination_by s => 2 * s.length

theorem cutItems?_append : ∀ {s r : List Char} {ns : List Node}, cutItems? s = some (ns, r) →
    Numeral.Ends t → cutItems? (s ++ t) = some (ns, r ++ t)
  | s, r, ns, h, ht => by
    rw [cutItems?_eq] at h
    obtain ⟨⟨n, u⟩, hn, h⟩ := Option.bind_eq_some_iff.mp h
    have hlength := length_of_cut? hn
    have hcut : cut? (s ++ t) = some (n, u ++ t) := cut?_append hn ht
    rw [cutItems?_eq, hcut, Option.bind_some]
    simp only at h ⊢
    split at h
    · rename_i v hu
      obtain ⟨⟨ms, w⟩, hms, heq⟩ := Option.map_eq_some_iff.mp h
      obtain ⟨rfl, rfl⟩ := Prod.mk.inj heq
      have hv : v.length < u.length := length_lt_of_skipSpace hu (by simp)
      rw [skipSpace_append_of_eq_cons hu t]
      simp only [cutItems?_append hms ht, Option.map_some]
    · rename_i v hu
      obtain ⟨rfl, rfl⟩ := Prod.mk.inj (Option.some.inj h)
      rw [skipSpace_append_of_eq_cons hu t]
      rfl
    · cases h
termination_by s => 2 * s.length + 1

theorem cutFields?_append : ∀ {s r : List Char} {fs : List (List Char × Node)},
    cutFields? s = some (fs, r) → Numeral.Ends t → cutFields? (s ++ t) = some (fs, r ++ t)
  | s, r, fs, h, ht => by
    rw [cutFields?_eq] at h
    split at h
    · rename_i k hs
      obtain ⟨⟨key, v⟩, hkey, h⟩ := Option.bind_eq_some_iff.mp h
      simp only at h
      split at h
      · rename_i w hv
        obtain ⟨⟨n, u⟩, hn, h⟩ := Option.bind_eq_some_iff.mp h
        have hk : k.length < s.length := length_lt_of_skipSpace hs (by simp)
        have hvk : v.length < k.length := length_of_scanQuoted hkey
        have hw : w.length < v.length := length_lt_of_skipSpace hv (by simp)
        have hlength := length_of_cut? hn
        have hcut : cut? (w ++ t) = some (n, u ++ t) := cut?_append hn ht
        rw [cutFields?_eq, skipSpace_append_of_eq_cons hs t]
        simp only [scanQuoted_append hkey t, Option.bind_some, skipSpace_append_of_eq_cons hv t,
          hcut]
        simp only at h
        split at h
        · rename_i x hu
          obtain ⟨⟨gs, y⟩, hgs, heq⟩ := Option.map_eq_some_iff.mp h
          obtain ⟨rfl, rfl⟩ := Prod.mk.inj heq
          have hx : x.length < u.length := length_lt_of_skipSpace hu (by simp)
          rw [skipSpace_append_of_eq_cons hu t]
          simp only [cutFields?_append hgs ht, Option.map_some]
        · rename_i x hu
          obtain ⟨rfl, rfl⟩ := Prod.mk.inj (Option.some.inj h)
          rw [skipSpace_append_of_eq_cons hu t]
          rfl
        · cases h
      · cases h
    · cases h
termination_by s => 2 * s.length + 1

end

variable {n : Node}

/-- Behind a text of a node nothing is read but blanks. -/
theorem read?_append_eq_none (h : Spells n s) (ht : Numeral.Ends t) (hblank : skipSpace t ≠ []) :
    read? (s ++ t) = none := by
  have hcut : cut? (s ++ t) = some (n, t) := cut?_of_spells h blanks_nil ht
  rw [read?_eq, hcut, Option.bind_some, if_neg hblank]

/-- The front of a text of a node is not read, unless a numeral goes on behind it. -/
theorem read?_eq_none_of_spells_append (h : Spells n (s ++ t)) (ht : Numeral.Ends t)
    (hne : t ≠ []) : read? s = none := by
  rw [Option.eq_none_iff_forall_ne_some]
  intro m hm
  rw [read?_eq] at hm
  obtain ⟨⟨k, r⟩, hcut, -⟩ := Option.bind_eq_some_iff.mp hm
  have hfront : cut? (s ++ t) = some (k, r ++ t) := cut?_append hcut ht
  have hwhole : cut? (s ++ t) = some (n, []) := by
    have := cut?_of_spells h blanks_nil (r := []) fun _ hc => by cases hc
    rwa [List.nil_append, List.append_nil] at this
  obtain ⟨-, hrest⟩ := Prod.mk.inj (Option.some.inj (hfront.symm.trans hwhole))
  exact hne (List.append_eq_nil_iff.mp hrest).2

end Node

end Json

end CallContract
