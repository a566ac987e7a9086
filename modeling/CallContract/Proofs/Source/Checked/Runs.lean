import CallContract.Proofs.Source.Checked.Access
import CallContract.Proofs.Source.Lookahead
import CallContract.Source.Checked.Lexer

/-!
# Words, regular expressions and numbers, read by offset

The scanners of words, regular expressions and numbers stop where the characters say, and no
check fails in them (`wordEnd_eq`, `regexEnd_eq`, `numberEnd_eq`). Before a sign the scanner of
numbers looks back over digits and letters, beyond the start of the number if they go on there;
so it matters that no digit or letter stands in front of a number that starts with a digit
(`RunAt`).
-/

namespace CallContract.Source.Checked

variable {text : List Char}

/-! ## Words -/

theorem continuesWord_of_le {b : Char} (hb : 0x80 ≤ b.toNat) : continuesWord b = true := by
  simp [continuesWord, hb]

theorem wordEnd_next (pos : Nat) (b : Char) (h : byte? text pos = some b) (hb : 0x80 ≤ b.toNat) :
    wordEnd text pos = wordEnd text (pos + 1) := by
  rw [wordEnd, if_pos (lt_of_byte? h), h]
  exact if_pos (continuesWord_of_le hb)

theorem wordEnd_eq : ∀ {s : List Char} {pos : Nat}, LeftAt text pos s →
    wordEnd text pos = some (pos + width (s.takeWhile continuesWord))
  | [], pos, h => by
    rw [wordEnd, if_neg h.not_lt]
    rfl
  | c :: r, pos, h => by
    have ih := wordEnd_eq h.tail
    rcases Nat.lt_or_ge c.toNat 0x80 with hc | hc
    · rw [wordEnd, if_pos h.lt, h.byte?_of_lt hc]
      by_cases hword : continuesWord c = true
      · rw [List.takeWhile_cons_of_pos hword, width_cons, ← Nat.add_assoc, ← ih,
          utf8Size_of_lt hc]
        exact if_pos hword
      · rw [List.takeWhile_cons_of_neg hword]
        exact if_neg hword
    · rw [h.skip_char hc wordEnd_next, ih, List.takeWhile_cons_of_pos (continuesWord_of_le hc),
        width_cons, Nat.add_assoc]

/-! ## Regular expressions -/

theorem regexEnd_next (start : Nat) (inClass : Bool) (pos : Nat) (b : Char)
    (h : byte? text pos = some b) (hb : 0x80 ≤ b.toNat) :
    regexEnd text start pos inClass = regexEnd text start (pos + 1) inClass := by
  have hne {a : Char} (ha : a.toNat < 0x80) : b ≠ a := ne_of_le hb ha
  rw [regexEnd, if_pos (lt_of_byte? h), h, lift_bind, if_neg (hne (by decide)),
    if_neg (hne (by decide)), if_neg (hne (by decide)),
    if_neg fun hslash => hne (by decide) hslash.1, if_neg (hne (by decide))]

/-- What the scanner of regular expressions gives for a length. -/
def regexStop (start pos : Nat) (s : List Char) (length : Option Nat) : Except Error Nat :=
  match length with
  | none => .error ⟨start, .openRegex⟩
  | some n => .ok (pos + width (s.take n))

theorem regexStop_map (start pos : Nat) {u s : List Char} (length : Option Nat) :
    regexStop start (pos + width u) s length =
      regexStop start pos (u ++ s) (length.map (· + u.length)) := by
  cases length with
  | none => rfl
  | some n =>
    simp [regexStop, Nat.add_comm n, List.take_add, width_append, Nat.add_assoc]

theorem regexEnd_eq {start pos : Nat} {inClass : Bool} {s : List Char} (h : LeftAt text pos s) :
    regexEnd text start pos inClass = of (regexStop start pos s (regexLength? inClass s)) := by
  fun_induction regexLength? inClass s generalizing pos with
  | case1 inClass =>
    rw [regexEnd, if_neg h.not_lt]
    rfl
  | case2 inClass d s ih =>
    have ih := ih (LeftAt.append (u := ['\\', d]) h)
    rw [regexEnd, if_pos h.lt, h.byte?_of_lt (by decide), lift_bind, if_pos rfl,
      h.skip_escaped (regexEnd_next start inClass), ih, regexStop_map]
    rfl
  | case3 inClass s ih =>
    have ih := ih (LeftAt.append (u := ['[']) h)
    rw [regexEnd, if_pos h.lt, h.byte?_of_lt (by decide), lift_bind, if_neg (by decide),
      if_pos rfl]
    exact ih.trans (congrArg of (regexStop_map ..))
  | case4 inClass s ih =>
    have ih := ih (LeftAt.append (u := [']']) h)
    rw [regexEnd, if_pos h.lt, h.byte?_of_lt (by decide), lift_bind, if_neg (by decide),
      if_neg (by decide), if_pos rfl]
    exact ih.trans (congrArg of (regexStop_map ..))
  | case5 inClass c r hback hopen hclose hslash =>
    obtain ⟨rfl, rfl⟩ := hslash
    have hflags : LeftAt text (pos + 1) r := h.tail_of_lt (by decide)
    rw [regexEnd, if_pos h.lt, h.byte?_of_lt (by decide), lift_bind, if_neg (by decide),
      if_neg (by decide), if_neg (by decide), if_pos ⟨rfl, rfl⟩, wordEnd_eq hflags, regexStop,
      List.take_succ_cons, take_length_takeWhile]
    exact congrArg (fun stop => of (.ok stop)) (Nat.add_assoc ..)
  | case6 inClass c r hback hopen hclose hslash hend =>
    have hc : c.toNat < 0x80 := by rcases hend with rfl | rfl <;> decide
    rw [regexEnd, if_pos h.lt, h.byte?_of_lt hc, lift_bind, if_neg hopen, if_neg hclose,
      if_neg hslash]
    rcases hend with rfl | rfl
    · rfl
    · obtain rfl : r = [] := by
        rcases r with _ | ⟨d, r⟩
        · rfl
        · exact (hback d r rfl rfl).elim
      rw [if_pos rfl, regexEnd, if_neg h.not_add_two_lt]
      rfl
  | case7 inClass c r hback hopen hclose hslash hend ih =>
    have ih := ih h.tail
    have hnext : regexEnd text start pos inClass =
        regexEnd text start (pos + c.utf8Size) inClass := by
      rcases Nat.lt_or_ge c.toNat 0x80 with hc | hc
      · rw [regexEnd, if_pos h.lt, h.byte?_of_lt hc, lift_bind, if_neg fun hb => hend (.inr hb),
          if_neg hopen, if_neg hclose, if_neg hslash, if_neg fun hb => hend (.inl hb),
          utf8Size_of_lt hc]
      · exact h.skip_char hc (regexEnd_next start inClass)
    rw [hnext, ih]
    exact congrArg of (regexStop_map (u := [c]) ..)

/-! ## Numbers -/

theorem lt_of_isNumberPart {c : Char} (h : isNumberPart c = true) : c.toNat < 0x80 := by
  rw [isNumberPart, Bool.or_eq_true, decide_eq_true_eq] at h
  rcases h with h | rfl
  · exact Text.toNat_lt_of_isAlphanum h
  · decide

theorem isNumberPart_of_le {b : Char} (h : 0x80 ≤ b.toNat) : isNumberPart b = false := by
  by_contra hb
  have hlt := lt_of_isNumberPart (Bool.eq_true_of_not_eq_false hb)
  omega

/-- The last byte of a character that no number goes on with is none either. -/
theorem LeftAt.exists_lastByte {a : Char} {s : List Char} {pos : Nat}
    (h : LeftAt text pos (a :: s)) (ha : isNumberPart a = false) :
    ∃ b, byte? text (pos + a.utf8Size - 1) = some b ∧ isNumberPart b = false := by
  rcases Nat.lt_or_ge a.toNat 0x80 with hlt | hle
  · rw [utf8Size_of_lt hlt]
    exact ⟨a, h.byte?_of_lt hlt, ha⟩
  · have hsize := Char.utf8Size_pos a
    have hlast : a.utf8Size - 1 < (bytesOfChar a).length := by
      rw [length_bytesOfChar]
      omega
    have hbyte : byte? text (pos + (a.utf8Size - 1)) = some (bytesOfChar a)[a.utf8Size - 1] := by
      rw [byte?, ← List.getElem?_drop, h.drop_bytesOf, bytesOf_cons,
        List.getElem?_append_left hlast, List.getElem?_eq_getElem hlast]
    rw [Nat.add_sub_assoc hsize]
    exact ⟨_, hbyte, isNumberPart_of_le (le_of_mem_bytesOfChar hle (List.getElem_mem hlast))⟩

/-- In front of byte `pos` stand the digits and letters `run` and none in front of them, and `s`
is left behind it. -/
structure RunAt (text : List Char) (pos : Nat) (run s : List Char) : Prop where
  parts : ∀ c ∈ run, isNumberPart c = true
  leftAt : ∃ front, text = front ++ (run ++ s) ∧ pos = width (front ++ run) ∧
    ∀ c ∈ front.getLast?, isNumberPart c = false

theorem runStart_eq {front : List Char} (hfront : ∀ c ∈ front.getLast?, isNumberPart c = false)
    {run s : List Char} (hrun : ∀ c ∈ run, isNumberPart c = true)
    (htext : text = front ++ (run ++ s)) :
    runStart text (width (front ++ run)) = some (width front) := by
  induction run using List.reverseRecOn generalizing s with
  | nil =>
    rw [List.append_nil]
    rcases List.eq_nil_or_concat front with rfl | ⟨front, a, rfl⟩
    · rfl
    · have ha : isNumberPart a = false := hfront a (by simp)
      have hplace : LeftAt text (width front) (a :: s) := ⟨front, by simpa using htext, rfl⟩
      obtain ⟨b, hb, hb'⟩ := hplace.exists_lastByte ha
      have hsize := Char.utf8Size_pos a
      obtain ⟨n, hn⟩ : ∃ n, width (front ++ [a]) = n + 1 :=
        ⟨width front + a.utf8Size - 1, by simp; omega⟩
      have hpos : width front + a.utf8Size - 1 = n := by simp at hn; omega
      rw [hpos] at hb
      rw [List.concat_eq_append, hn, runStart, hb]
      exact if_neg (by rw [hb']; decide)
  | append_singleton run a ih =>
    have ha : isNumberPart a = true := hrun a (by simp)
    have hlt := lt_of_isNumberPart ha
    have hplace : LeftAt text (width (front ++ run)) (a :: s) :=
      ⟨front ++ run, by simpa using htext, rfl⟩
    have hwidth : width (front ++ (run ++ [a])) = width (front ++ run) + 1 := by
      simp [utf8Size_of_lt hlt, Nat.add_assoc]
    rw [hwidth, runStart, hplace.byte?_of_lt hlt]
    exact (if_pos ha).trans
      (ih (s := a :: s) (fun c hc => hrun c (by simp [hc])) (by simpa using htext))

theorem isHexRun_iff (run : List Char) : isHexRun run = true ↔
    run.head? = some '0' ∧ (run.tail.head? = some 'x' ∨ run.tail.head? = some 'X') := by
  fun_cases isHexRun run with
  | case1 => simp
  | case2 => simp
  | case3 run hlower hupper =>
    refine iff_of_false Bool.false_ne_true fun ⟨hzero, hmark⟩ => ?_
    obtain ⟨t, rfl⟩ := List.head?_eq_some_iff.mp hzero
    rcases hmark with hmark | hmark
    · obtain ⟨u, rfl⟩ := List.head?_eq_some_iff.mp hmark
      exact hlower u rfl
    · obtain ⟨u, rfl⟩ := List.head?_eq_some_iff.mp hmark
      exact hupper u rfl

theorem isHexPrefixed_eq {pos : Nat} {run s : List Char} {c : Char}
    (h : RunAt text pos run (c :: s)) (hc : c = '+' ∨ c = '-') (hrun : run ≠ []) :
    isHexPrefixed text pos = some (isHexRun run) := by
  obtain ⟨front, htext, rfl, hfront⟩ := h.leftAt
  have hplace : LeftAt text (width front) (run ++ c :: s) := ⟨front, htext, rfl⟩
  obtain ⟨a, run, rfl⟩ := List.exists_cons_of_ne_nil hrun
  rw [isHexPrefixed, runStart_eq hfront h.parts htext]
  refine congrArg some (Bool.eq_iff_iff.mpr ?_)
  rw [isHexRun_iff, decide_eq_true_iff, hplace.byte?_eq_iff (by decide)]
  refine and_congr_right fun hzero => ?_
  obtain rfl : a = '0' := Option.some.inj hzero
  have hnext : LeftAt text (width front + 1) (run ++ c :: s) := hplace.tail_of_lt (by decide)
  rw [hnext.byte?_eq_iff (by decide), hnext.byte?_eq_iff (by decide)]
  rcases run with _ | ⟨d, run⟩
  · rcases hc with rfl | rfl <;> simp
  · rfl

theorem isExponentSign_of_byte {pos : Nat} {b c : Char} (hc : c = '+' ∨ c = '-') (hpos : 0 < pos)
    (hb : byte? text (pos - 1) = some b) : isExponentSign text c pos =
      if b = 'e' ∨ b = 'E' then (isHexPrefixed text pos).map (!·) else some false := by
  rw [isExponentSign, if_pos ⟨hc, hpos⟩, subtract?_of_le hpos]
  simp only [Option.bind_eq_bind, Option.bind_some, hb]

theorem isExponentSign_eq {pos : Nat} {run s : List Char} {c : Char}
    (h : RunAt text pos run (c :: s)) (hc : c = '+' ∨ c = '-') :
    isExponentSign text c pos = some (signMayFollow run) := by
  rcases List.eq_nil_or_concat run with rfl | ⟨run, a, rfl⟩
  · obtain ⟨front, htext, rfl, hfront⟩ := h.leftAt
    rw [List.append_nil]
    rcases List.eq_nil_or_concat front with rfl | ⟨front, a, rfl⟩
    · exact if_neg fun hpos => Nat.lt_irrefl 0 hpos.2
    · have hplace : LeftAt text (width front) (a :: c :: s) := ⟨front, by simpa using htext, rfl⟩
      obtain ⟨b, hb, hb'⟩ := hplace.exists_lastByte (hfront a (by simp))
      have hsize := Char.utf8Size_pos a
      have hpos : width (front.concat a) = width front + a.utf8Size := by simp
      have hletter : ¬(b = 'e' ∨ b = 'E') := by
        rintro (rfl | rfl) <;> exact absurd hb' (by decide)
      rw [hpos, isExponentSign_of_byte hc (by omega) hb, if_neg hletter]
      rfl
  · have hpart : isNumberPart a = true := h.parts a (by simp)
    have hlt := lt_of_isNumberPart hpart
    obtain ⟨front, htext, hpos, -⟩ := h.leftAt
    have hplace : LeftAt text (pos - 1) (a :: c :: s) :=
      ⟨front ++ run, by simpa using htext, by simp [hpos, utf8Size_of_lt hlt, ← Nat.add_assoc]⟩
    have hpos' : 0 < pos := by simp [hpos, utf8Size_of_lt hlt]
    rw [isExponentSign_of_byte hc hpos' (hplace.byte?_of_lt hlt), isHexPrefixed_eq h hc (by simp),
      signMayFollow]
    by_cases hletter : a = 'e' ∨ a = 'E'
    · simp [hletter]
    · simp [hletter]

theorem isExponentSign_of_not {b : Char} (pos : Nat) (hb : ¬(b = '+' ∨ b = '-')) :
    isExponentSign text b pos = some false :=
  if_neg fun h => hb h.1

theorem RunAt.part {pos : Nat} {run s : List Char} {c : Char} (h : RunAt text pos run (c :: s))
    (hc : isNumberPart c = true) : RunAt text (pos + 1) (run ++ [c]) s := by
  obtain ⟨front, htext, rfl, hfront⟩ := h.leftAt
  refine ⟨?_, front, by simpa using htext, ?_, hfront⟩
  · simpa [or_imp, forall_and] using ⟨h.parts, hc⟩
  · simp [utf8Size_of_lt (lt_of_isNumberPart hc), Nat.add_assoc]

/-- Digits and letters start anew behind a character that is neither. -/
theorem LeftAt.runAt {pos : Nat} {s : List Char} {c : Char} (h : LeftAt text pos (c :: s))
    (hlt : c.toNat < 0x80) (hc : isNumberPart c = false) : RunAt text (pos + 1) [] s := by
  obtain ⟨front, htext, rfl⟩ := h
  refine ⟨by simp, front ++ [c], by simpa using htext, ?_, by simpa using hc⟩
  simp [utf8Size_of_lt hlt]

theorem RunAt.place {pos : Nat} {run s : List Char} (h : RunAt text pos run s) :
    LeftAt text pos s := by
  obtain ⟨front, htext, hpos, -⟩ := h.leftAt
  exact ⟨front ++ run, by simpa using htext, hpos⟩

theorem numberEnd_step {pos : Nat} {b : Char} {sign : Bool} (hb : byte? text pos = some b)
    (hsign : isExponentSign text b pos = some sign) : numberEnd text pos =
      if isNumberPart b ∨ b = '.' ∨ sign then numberEnd text (pos + 1) else some pos := by
  rw [numberEnd, if_pos (lt_of_byte? hb), hb]
  simp only [Option.bind_eq_bind, Option.bind_some, hsign]

theorem numberEnd_eq : ∀ {s run : List Char} {pos : Nat}, RunAt text pos run s →
    numberEnd text pos = some (pos + width (s.take (numberLength run s)))
  | [], run, pos, h => by
    rw [numberEnd, if_neg h.place.not_lt]
    rfl
  | c :: s, run, pos, h => by
    have hplace := h.place
    rw [numberLength]
    by_cases hpart : isNumberPart c = true
    · have hlt := lt_of_isNumberPart hpart
      have hsign : ¬(c = '+' ∨ c = '-') := by
        rintro (rfl | rfl) <;> exact absurd hpart (by decide)
      rw [numberEnd_step (hplace.byte?_of_lt hlt) (isExponentSign_of_not pos hsign),
        if_pos (.inl hpart), if_pos hpart, List.take_succ_cons, width_cons, utf8Size_of_lt hlt,
        ← Nat.add_assoc]
      exact numberEnd_eq (h.part hpart)
    have hpart' : isNumberPart c = false := Bool.eq_false_of_not_eq_true hpart
    rw [if_neg hpart]
    by_cases hpoint : c = '.'
    · subst hpoint
      rw [numberEnd_step (hplace.byte?_of_lt (by decide)) (isExponentSign_of_not pos (by decide)),
        if_pos (.inr (.inl rfl)), if_pos rfl, List.take_succ_cons, width_cons,
        utf8Size_of_lt (by decide), ← Nat.add_assoc]
      exact numberEnd_eq (hplace.runAt (by decide) hpart')
    rw [if_neg hpoint]
    by_cases hsign : c = '+' ∨ c = '-'
    · have hlt : c.toNat < 0x80 := by rcases hsign with rfl | rfl <;> decide
      rw [numberEnd_step (hplace.byte?_of_lt hlt) (isExponentSign_eq h hsign)]
      by_cases hfollow : signMayFollow run = true
      · rw [if_pos (.inr (.inr hfollow)), if_pos ⟨hsign, hfollow⟩, List.take_succ_cons,
          width_cons, utf8Size_of_lt hlt, ← Nat.add_assoc]
        exact numberEnd_eq (hplace.runAt hlt hpart')
      · rw [if_neg (by simp [hpart', hpoint, hfollow]), if_neg fun hs => hfollow hs.2]
        rfl
    · obtain ⟨b, hb, hb', hpoint', hsign'⟩ : ∃ b, byte? text pos = some b ∧
          isNumberPart b = false ∧ b ≠ '.' ∧ ¬(b = '+' ∨ b = '-') := by
        rcases Nat.lt_or_ge c.toNat 0x80 with hlt | hle
        · exact ⟨c, hplace.byte?_of_lt hlt, hpart', hpoint, hsign⟩
        · obtain ⟨b, hb, hle⟩ := hplace.exists_byte? hle
          exact ⟨b, hb, isNumberPart_of_le hle, ne_of_le hle (by decide),
            fun hs => hs.elim (ne_of_le hle (by decide)) (ne_of_le hle (by decide))⟩
      rw [numberEnd_step hb (isExponentSign_of_not pos hsign'), if_neg (by simp [hb', hpoint']),
        if_neg fun hs => hsign hs.1]
      rfl

end CallContract.Source.Checked
