import CallContract.Proofs.Source.Checked.Literals
import CallContract.Proofs.Source.Checked.Runs
import CallContract.Proofs.Source.Concatenation.Tokens
import CallContract.Proofs.Source.Tiling

/-!
# Tokens, read by offset

Cutting up a text by byte offsets gives the tokens and comments that `Source.tokenize` gives, and
no check fails (`tokenize_eq`). From token to token it is kept that no number goes on across the
place that was reached (`Parted`).
-/

namespace CallContract.Source.Checked

variable {text : List Char}

/-! ## Where lexemes end -/

/-- What ends with `u` does not run into `s` as a number would. -/
def Parts (u s : List Char) : Prop :=
  ∀ a ∈ u.getLast?, ∀ d ∈ s.head?, isNumberPart a = true → isNumberPart d = false

theorem parts_of_last {u s : List Char} {a : Char} (hu : u.getLast? = some a)
    (ha : isNumberPart a = false) : Parts u s := by
  rintro b hb - - hpart
  rw [hu] at hb
  cases hb
  exact absurd hpart (by simp [ha])

theorem parts_of_head {u s : List Char} (hs : ∀ d ∈ s.head?, isNumberPart d = false) : Parts u s :=
  fun _ _ d hd _ => hs d hd

theorem getLast?_stringBody {quote : Char} {s v : List Char} {n : Nat}
    (h : stringBody quote s = .ok (v, n)) : (s.take n).getLast? = some quote := by
  fun_induction stringBody quote s generalizing v n with
  | case2 r => cases h; rfl
  | case7 r hr cs k he t m ht hq hn ih =>
    cases h
    rw [List.take_succ_cons, Nat.add_comm m, List.take_add, List.getLast?_cons,
      List.getLast?_append, ih ht]
    rfl
  | case9 c r hq hn hb t m ht ih =>
    cases h
    rw [List.take_succ_cons, List.getLast?_cons, ih ht]
    rfl
  | _ => cases h

theorem getLast?_templateBody {s : List Char} {start pos n : Nat} {body : Option (List Char)}
    (h : templateBody start pos s = .ok (body, n)) : (s.take n).getLast? = some '\x60' := by
  cases templateStep_of_templateBody h with
  | close => rfl
  | escaped hm =>
    rw [List.take_succ_cons, List.take_succ_cons, List.getLast?_cons, List.getLast?_cons,
      getLast?_templateBody hm]
    rfl
  | @substituted t body k m hk hm =>
    rw [List.take_succ_cons, List.take_succ_cons, Nat.add_comm m, List.take_add,
      List.getLast?_cons, List.getLast?_cons, List.getLast?_append, getLast?_templateBody hm]
    rfl
  | plain _ _ _ hm =>
    rw [List.take_succ_cons, List.getLast?_cons, getLast?_templateBody hm]
    rfl
termination_by s.length
decreasing_by all_goals subst_vars; simp only [List.length_cons, List.length_drop]; omega

theorem isNumberPart_head_drop_numberLength : ∀ (run s : List Char),
    ∀ d ∈ (s.drop (numberLength run s)).head?, isNumberPart d = false
  | _, [], d, hd => by cases hd
  | run, c :: s, d, hd => by
    rw [numberLength] at hd
    split at hd
    · exact isNumberPart_head_drop_numberLength _ s d hd
    split at hd
    · exact isNumberPart_head_drop_numberLength _ s d hd
    split at hd
    · exact isNumberPart_head_drop_numberLength _ s d hd
    · rename_i hpart _ _
      cases hd
      exact Bool.eq_false_of_not_eq_true hpart

theorem isNumberPart_of_not_continuesWord {c : Char} (h : ¬continuesWord c = true) :
    isNumberPart c = false := by
  simp only [continuesWord, Bool.or_eq_true, not_or] at h
  simp only [isNumberPart, Bool.or_eq_false_iff]
  exact ⟨Bool.eq_false_of_not_eq_true h.1.1.1, Bool.eq_false_of_not_eq_true h.1.1.2⟩

theorem isNumberPart_head_dropWhile (s : List Char) :
    ∀ d ∈ (s.dropWhile continuesWord).head?, isNumberPart d = false := by
  intro d hd
  have hnot := List.head?_dropWhile_not continuesWord s
  rw [hd] at hnot
  exact isNumberPart_of_not_continuesWord (by simpa using hnot)

theorem isNumberPart_head_drop_regexLength? {inClass : Bool} {s : List Char} {n : Nat}
    (h : regexLength? inClass s = some n) : ∀ d ∈ (s.drop n).head?, isNumberPart d = false := by
  fun_induction regexLength? inClass s generalizing n with
  | case1 => cases h
  | case2 inClass d s ih =>
    obtain ⟨m, hm, rfl⟩ := Option.map_eq_some_iff.mp h
    exact ih hm
  | case3 inClass s ih =>
    obtain ⟨m, hm, rfl⟩ := Option.map_eq_some_iff.mp h
    exact ih hm
  | case4 inClass s ih =>
    obtain ⟨m, hm, rfl⟩ := Option.map_eq_some_iff.mp h
    exact ih hm
  | case5 inClass c r =>
    cases h
    rw [List.drop_succ_cons, drop_length_takeWhile]
    exact isNumberPart_head_dropWhile r
  | case6 => cases h
  | case7 inClass c r _ _ _ _ _ ih =>
    obtain ⟨m, hm, rfl⟩ := Option.map_eq_some_iff.mp h
    exact ih hm

theorem all_operators_end :
    (operators.all fun o => o.toList.getLast?.all fun a => !isNumberPart a) = true := by cbv

theorem isNumberPart_getLast?_operator {o : String} (ho : o ∈ operators) :
    ∀ a ∈ o.toList.getLast?, isNumberPart a = false := by
  intro a ha
  have hall := List.all_eq_true.mp all_operators_end o ho
  rw [ha] at hall
  simpa using hall

/-- No number goes on across the end of a lexeme. -/
theorem parts_of_lexemeAt {previous : Option Lexeme} {pos n : Nat} {c : Char} {r : List Char}
    {l : Lexeme} (h : lexemeAt previous pos c r = .ok (l, n)) :
    Parts (c :: r.take n) (r.drop n) := by
  cases scanned_of_lexemeAt h with
  | string hquote hm =>
    have hlast : (c :: r.take n).getLast? = some c := by
      rw [List.getLast?_cons, getLast?_stringBody hm]
      rfl
    exact parts_of_last hlast (by rcases hquote with rfl | rfl <;> decide)
  | template _ _ hm =>
    have hlast : (c :: r.take n).getLast? = some '\x60' := by
      rw [List.getLast?_cons, getLast?_templateBody hm]
      rfl
    exact parts_of_last hlast (by decide)
  | number _ _ _ hn =>
    rw [hn]
    exact parts_of_head (isNumberPart_head_drop_numberLength _ r)
  | regex _ _ _ _ hm => exact parts_of_head (isNumberPart_head_drop_regexLength? hm)
  | word _ _ _ _ _ hn =>
    rw [hn, drop_length_takeWhile]
    exact parts_of_head (isNumberPart_head_dropWhile r)
  | operator _ _ _ _ _ ho =>
    rintro a ha - - hpart
    rw [← toList_of_operator? ho] at ha
    have hnot := isNumberPart_getLast?_operator (List.mem_of_find?_eq_some ho) a ha
    exact absurd hpart (by simp [hnot])

/-! ## Lexemes -/

/-- What is left at a place across which no number goes on. -/
def Parted (text : List Char) (pos : Nat) (s : List Char) : Prop :=
  ∃ front, text = front ++ s ∧ pos = width front ∧ Parts front s

section Parted

variable {pos : Nat} {c : Char} {r s : List Char}

theorem Parted.start (text : List Char) : Parted text 0 text := ⟨[], rfl, rfl, by simp [Parts]⟩

theorem Parted.leftAt (h : Parted text pos s) : LeftAt text pos s := by
  obtain ⟨front, htext, hpos, -⟩ := h
  exact ⟨front, htext, hpos⟩

theorem LeftAt.parted {u : List Char} (h : LeftAt text pos (u ++ s)) (hu : u ≠ [])
    (hparts : Parts u s) : Parted text (pos + width u) s := by
  obtain ⟨front, rfl, rfl⟩ := h
  refine ⟨front ++ u, (List.append_assoc ..).symm, (width_append ..).symm, ?_⟩
  rwa [Parts, List.getLast?_append_of_ne_nil _ hu]

theorem Parted.runAt (h : Parted text pos (c :: r)) (hc : isNumberPart c = true) :
    RunAt text pos [] (c :: r) := by
  obtain ⟨front, htext, hpos, hparts⟩ := h
  refine ⟨by simp, front, htext, by simpa using hpos, fun a ha => ?_⟩
  by_contra hpart
  have hnot := hparts a ha c rfl (Bool.eq_true_of_not_eq_false hpart)
  exact absurd hc (by simp [hnot])

theorem isNumberPart_of_isDigit (hc : c.isDigit = true) : isNumberPart c = true := by
  simp [isNumberPart, Char.isAlphanum, hc]

theorem isDigit_of_le (hc : 0x80 ≤ c.toNat) : c.isDigit = false := by
  by_contra hd
  have hpart := isNumberPart_of_isDigit (Bool.eq_true_of_not_eq_false hd)
  exact absurd hpart (by simp [isNumberPart_of_le hc])

/-- Whether a digit is next shows in the next byte. -/
theorem LeftAt.any_isDigit (h : LeftAt text pos s) :
    (byte? text pos).any Char.isDigit = s.head?.any Char.isDigit := by
  rcases s with _ | ⟨d, s⟩
  · rw [h.byte?_nil]
    rfl
  rcases Nat.lt_or_ge d.toNat 0x80 with hd | hd
  · rw [h.byte?_of_lt hd]
    rfl
  · obtain ⟨b, hb, hle⟩ := h.exists_byte? hd
    simp [hb, isDigit_of_le hle, isDigit_of_le hd]

/-- Where the lexeme stops of which so many characters follow the first. -/
def lexemeStop (pos : Nat) (c : Char) (r : List Char) (x : Lexeme × Nat) : Lexeme × Nat :=
  (x.1, pos + width (c :: r.take x.2))

theorem numberEnd_start (h : Parted text pos (c :: r)) (hc : c.toNat < 0x80)
    (hnumber : c.isDigit = true ∨ c = '.' ∧ r.head?.any Char.isDigit = true) :
    numberEnd text pos =
      some (pos + width (c :: r.take (numberLength (if c = '.' then [] else [c]) r))) := by
  by_cases hpoint : c = '.'
  · subst hpoint
    have hplace := h.leftAt
    rw [numberEnd_step (hplace.byte?_of_lt hc) (isExponentSign_of_not pos (by decide)),
      if_pos (.inr (.inl rfl)), numberEnd_eq (hplace.runAt hc (by decide)), if_pos rfl, width_cons,
      utf8Size_of_lt hc, Nat.add_assoc]
  · have hpart := isNumberPart_of_isDigit (hnumber.resolve_right fun hp => hpoint hp.1)
    rw [numberEnd_eq (h.runAt hpart), numberLength, if_pos hpart, if_neg hpoint,
      List.take_succ_cons, List.nil_append]

theorem continuesWord_of_startsWord (hc : startsWord c = true) : continuesWord c = true := by
  simp only [startsWord, continuesWord, Char.isAlphanum, Bool.or_eq_true] at hc ⊢
  tauto

theorem wordEnd_start (h : LeftAt text pos (c :: r)) (hc : startsWord c = true) :
    wordEnd text pos =
      some (pos + width (c :: r.take (r.takeWhile continuesWord).length)) := by
  rw [wordEnd_eq h, List.takeWhile_cons_of_pos (continuesWord_of_startsWord hc),
    take_length_takeWhile]

theorem stretch?_word (h : LeftAt text pos (c :: r)) :
    stretch? text pos (pos + width (c :: r.take (r.takeWhile continuesWord).length)) =
      some (c :: r.take (r.takeWhile continuesWord).length) :=
  h.stretch?_take ((r.takeWhile continuesWord).length + 1)

theorem scanLexeme_eq {previous : Option Lexeme} {b : Char} (h : Parted text pos (c :: r))
    (hb : byte? text pos = some b) : scanLexeme text previous pos b =
      of ((lexemeAt previous pos c r).map (lexemeStop pos c r)) := by
  have hplace := h.leftAt
  unfold scanLexeme lexemeAt
  rcases Nat.lt_or_ge c.toNat 0x80 with hc | hc
  · obtain rfl : c = b := Option.some.inj ((hplace.byte?_of_lt hc).symm.trans hb)
    have hnext : LeftAt text (pos + 1) r := hplace.tail_of_lt hc
    have hstop (l : Lexeme) (n : Nat) : (l, pos + 1 + width (r.take n)) =
        lexemeStop pos c r (l, n) := by
      rw [lexemeStop, width_cons, utf8Size_of_lt hc, ← Nat.add_assoc]
    by_cases hquote : c = '"' ∨ c = '\x27'
    · rw [if_pos hquote, if_pos hquote, scanString_eq hplace hc]
      cases stringBody c r with
      | error e => rfl
      | ok x => exact congrArg (fun x => of (.ok x)) (hstop _ x.2)
    rw [if_neg hquote, if_neg hquote]
    by_cases htemplate : c = '\x60'
    · rw [if_pos htemplate, if_pos htemplate, scanTemplate_start hnext]
      cases templateBody pos (pos + 1) r with
      | error e => rfl
      | ok x => exact congrArg (fun x => of (.ok x)) (hstop _ x.2)
    rw [if_neg htemplate, if_neg htemplate, hnext.any_isDigit]
    by_cases hnumber : c.isDigit = true ∨ c = '.' ∧ r.head?.any Char.isDigit = true
    · have htext := hplace.stretch?_take (numberLength (if c = '.' then [] else [c]) r + 1)
      rw [List.take_succ_cons] at htext
      rw [if_pos hnumber, if_pos hnumber, numberEnd_start h hc hnumber, lift_bind, htext]
      rfl
    rw [if_neg hnumber, if_neg hnumber]
    by_cases hregex : c = '/' ∧ regexMayFollow previous = true
    · rw [if_pos hregex, if_pos hregex, regexEnd_eq hnext]
      cases regexLength? false r with
      | none => rfl
      | some n => exact congrArg (fun x => of (.ok x)) (hstop _ n)
    rw [if_neg hregex, if_neg hregex]
    by_cases hword : startsWord c = true
    · rw [if_pos hword, if_pos hword, wordEnd_start hplace hword, lift_bind,
        stretch?_word hplace]
      rfl
    rw [if_neg hword, if_neg hword, hplace.rest?, lift_bind]
    cases ho : operator? (c :: r) with
    | none => rfl
    | some o =>
      simp only [toList_of_operator? ho]
      rfl
  · -- beyond ASCII there are only words, and the first byte shows it
    obtain ⟨d, hd, hle⟩ := hplace.exists_byte? hc
    obtain rfl : d = b := Option.some.inj (hd.symm.trans hb)
    have hword {a : Char} (ha : 0x80 ≤ a.toNat) : startsWord a = true := by simp [startsWord, ha]
    have hother {a : Char} (ha : 0x80 ≤ a.toNat) : ¬(a = '"' ∨ a = '\x27') ∧ a ≠ '\x60' ∧
        a ≠ '.' ∧ a ≠ '/' ∧ ¬a.isDigit = true := by
      refine ⟨?_, ne_of_le ha (by decide), ne_of_le ha (by decide), ne_of_le ha (by decide), ?_⟩
      · exact fun hq => hq.elim (ne_of_le ha (by decide)) (ne_of_le ha (by decide))
      · simp [isDigit_of_le ha]
    obtain ⟨hquote, htemplate, hpoint, hslash, hdigit⟩ := hother hle
    obtain ⟨hquote', htemplate', hpoint', hslash', hdigit'⟩ := hother hc
    rw [if_neg hquote, if_neg htemplate, if_neg fun hn => hn.elim hdigit fun hp => hpoint hp.1,
      if_neg fun hr => hslash hr.1, if_pos (hword hle), wordEnd_start hplace (hword hc), lift_bind,
      stretch?_word hplace, if_neg hquote', if_neg htemplate',
      if_neg fun hn => hn.elim hdigit' fun hp => hpoint' hp.1, if_neg fun hr => hslash' hr.1,
      if_pos (hword hc)]
    rfl

end Parted

/-! ## Tokens and comments -/

section Pieces

variable {pos n : Nat} {broken : Bool} {previous : Option Lexeme} {c : Char} {r : List Char}

theorem isNumberPart_of_isGap (hc : isGap c = true) : isNumberPart c = false := by
  simp only [isGap, Bool.or_eq_true, decide_eq_true_eq] at hc
  rcases hc with (((rfl | rfl) | rfl) | rfl) | rfl <;> decide

theorem lt_of_isGap (hc : isGap c = true) : c.toNat < 0x80 := by
  simp only [isGap, Bool.or_eq_true, decide_eq_true_eq] at hc
  rcases hc with (((rfl | rfl) | rfl) | rfl) | rfl <;> decide

theorem isNumberPart_head_line (s : List Char) :
    ∀ d ∈ (s.dropWhile (· ≠ '\n')).head?, isNumberPart d = false := by
  intro d hd
  have hnot := List.head?_dropWhile_not (· ≠ '\n') s
  rw [hd] at hnot
  obtain rfl : d = '\n' := by simpa using hnot
  decide

/-- A line comment in front. -/
theorem scanPieces_line (h : LeftAt text pos ('/' :: '/' :: r)) :
    scanPieces text pos broken previous =
      (scanPieces text (pos + 2 + width (r.takeWhile (· ≠ '\n'))) broken previous >>= fun p =>
        pure { p with comments := ⟨false, String.ofList (r.takeWhile (· ≠ '\n')), pos,
          pos + 2 + width (r.takeWhile (· ≠ '\n'))⟩ :: p.comments }) := by
  have hnext : LeftAt text (pos + 1) ('/' :: r) := h.tail_of_lt (by decide)
  have hinside : LeftAt text (pos + 2) (r.takeWhile (· ≠ '\n') ++ r.dropWhile (· ≠ '\n')) := by
    rw [List.takeWhile_append_dropWhile]
    exact hnext.tail_of_lt (by decide)
  have hstop : pos + width (('/' :: '/' :: r).takeWhile (· ≠ '\n')) =
      pos + 2 + width (r.takeWhile (· ≠ '\n')) := by
    rw [List.takeWhile_cons_of_pos (by decide), List.takeWhile_cons_of_pos (by decide), width_cons,
      width_cons, show '/'.utf8Size = 1 from rfl]
    omega
  rw [scanPieces, if_pos h.lt, h.byte?_of_lt (by decide), lift_bind, if_neg (by decide),
    if_pos ⟨rfl, hnext.byte?_of_lt (by decide)⟩, h.rest?, lift_bind]
  have hfurther : pos < pos + 2 + width (r.takeWhile (· ≠ '\n')) := by omega
  simp only [hstop, hinside.stretch?, further?_of_lt h.lt hfurther, lift_bind]

/-- A block comment in front. -/
theorem scanPieces_block (h : LeftAt text pos ('/' :: '*' :: r)) (hn : blockLength? r = some n) :
    scanPieces text pos broken previous =
      (scanPieces text (pos + 4 + width (r.take n)) (broken || (r.take n).contains '\n') previous
        >>= fun p => pure { p with comments := ⟨true, String.ofList (r.take n), pos,
          pos + 4 + width (r.take n)⟩ :: p.comments }) := by
  have hnext : LeftAt text (pos + 1) ('*' :: r) := h.tail_of_lt (by decide)
  have hinside : LeftAt text (pos + 2) r := hnext.tail_of_lt (by decide)
  have hstop : pos + 2 + width (r.take n) + 2 = pos + 4 + width (r.take n) := by omega
  rw [scanPieces, if_pos h.lt, h.byte?_of_lt (by decide), lift_bind, if_neg (by decide),
    if_neg (by rw [hnext.byte?_eq_iff (by decide)]; simp),
    if_pos ⟨rfl, hnext.byte?_of_lt (by decide)⟩, hinside.rest?, lift_bind, hn]
  have hback : subtract? (pos + 4 + width (r.take n)) 2 = some (pos + 2 + width (r.take n)) := by
    rw [← hstop, subtract?_of_le (Nat.le_add_left 2 _), Nat.add_sub_cancel]
  simp only [hstop, hback, lift_bind, hinside.stretch?_take]

theorem scanPieces_open (h : LeftAt text pos ('/' :: '*' :: r)) (hn : blockLength? r = none) :
    scanPieces text pos broken previous = of (.error ⟨pos, .openComment⟩) := by
  have hnext : LeftAt text (pos + 1) ('*' :: r) := h.tail_of_lt (by decide)
  have hinside : LeftAt text (pos + 2) r := hnext.tail_of_lt (by decide)
  rw [scanPieces, if_pos h.lt, h.byte?_of_lt (by decide), lift_bind, if_neg (by decide),
    if_neg (by rw [hnext.byte?_eq_iff (by decide)]; simp),
    if_pos ⟨rfl, hnext.byte?_of_lt (by decide)⟩, hinside.rest?, lift_bind, hn]
  rfl

/-- A lexeme in front. -/
theorem scanPieces_lexeme (h : Parted text pos (c :: r)) (hgap : ¬isGap c = true)
    (hline : ¬(c = '/' ∧ r.head? = some '/')) (hblock : ¬(c = '/' ∧ r.head? = some '*')) :
    scanPieces text pos broken previous =
      (of ((lexemeAt previous pos c r).map (lexemeStop pos c r)) >>= fun x =>
        scanPieces text x.2 false (some x.1) >>= fun p =>
          pure { p with tokens := ⟨x.1, pos, x.2, broken⟩ :: p.tokens }) := by
  have hplace := h.leftAt
  obtain ⟨b, hb, hbc⟩ := hplace.exists_byte?_eq
  have hgap' : ¬isGap b = true := by
    simpa [isGap, hbc] using hgap
  have hnext (a : Char) (ha : a.toNat < 0x80) (hc : ¬(c = '/' ∧ r.head? = some a)) :
      ¬(b = '/' ∧ byte? text (pos + 1) = some a) := by
    rintro ⟨hslash, hnext⟩
    obtain rfl := (hbc '/' (by decide)).mp hslash
    exact hc ⟨rfl, ((hplace.tail_of_lt (by decide)).byte?_eq_iff ha).mp hnext⟩
  rw [scanPieces, if_pos hplace.lt, hb, lift_bind, if_neg hgap',
    if_neg (hnext '/' (by decide) hline), if_neg (hnext '*' (by decide) hblock),
    scanLexeme_eq h hb]
  cases lexemeAt previous pos c r with
  | error e => rfl
  | ok x =>
    have hfurther : pos < pos + width (c :: r.take x.2) := by
      have hc := Char.utf8Size_pos c
      rw [width_cons]
      omega
    simp only [Except.map, lexemeStop, of_ok_bind, further?_of_lt hplace.lt hfurther, lift_bind]

theorem scanPieces_eq : ∀ {s : List Char} {pos : Nat} {broken : Bool} {previous : Option Lexeme},
    Parted text pos s → scanPieces text pos broken previous = of (piecesFrom pos broken previous s)
  | [], pos, broken, previous, h => by
    rw [scanPieces, if_neg h.leftAt.not_lt, piecesFrom]
    rfl
  | c :: r, pos, broken, previous, h => by
    have hplace := h.leftAt
    by_cases hgap : isGap c = true
    · have hlt := lt_of_isGap hgap
      have hnext := LeftAt.parted (u := [c]) hplace (by simp)
        (parts_of_last rfl (isNumberPart_of_isGap hgap))
      rw [width_cons, width_nil, utf8Size_of_lt hlt] at hnext
      rw [scanPieces, if_pos hplace.lt, hplace.byte?_of_lt hlt, lift_bind, if_pos hgap,
        scanPieces_eq hnext, piecesFrom, if_pos hgap]
    by_cases hline : c = '/' ∧ r.head? = some '/'
    · obtain ⟨hc, hr⟩ := hline
      obtain ⟨t, ht⟩ := List.head?_eq_some_iff.mp hr
      rw [hc, ht] at hplace ⊢
      have hnext : Parted text (pos + 2 + width (t.takeWhile (· ≠ '\n')))
          (t.drop (t.takeWhile (· ≠ '\n')).length) := by
        rw [drop_length_takeWhile]
        have hparted := LeftAt.parted (u := '/' :: '/' :: t.takeWhile (· ≠ '\n'))
          (s := t.dropWhile (· ≠ '\n')) (by simpa using hplace) (by simp)
          (parts_of_head (isNumberPart_head_line t))
        rwa [width_cons, width_cons, ← Nat.add_assoc, ← Nat.add_assoc] at hparted
      rw [scanPieces_line hplace, piecesFrom_line, scanPieces_eq hnext]
      cases piecesFrom (pos + 2 + width (t.takeWhile (· ≠ '\n'))) broken previous
        (t.drop (t.takeWhile (· ≠ '\n')).length) <;> rfl
    by_cases hblock : c = '/' ∧ r.head? = some '*'
    · obtain ⟨hc, hr⟩ := hblock
      obtain ⟨t, ht⟩ := List.head?_eq_some_iff.mp hr
      rw [hc, ht] at hplace ⊢
      cases hn : blockLength? t with
      | none =>
        rw [scanPieces_open hplace hn, piecesFrom, if_neg (by decide), if_neg (by simp),
          if_pos ⟨rfl, rfl⟩, List.drop_succ_cons, List.drop_zero, hn]
      | some n =>
        have hnext : Parted text (pos + 4 + width (t.take n)) (t.drop (n + 2)) := by
          rw [eq_append_of_blockLength? hn] at hplace
          have hlast : ('/' :: '*' :: (t.take n ++ ['*', '/'])).getLast? = some '/' := by
            rw [← List.cons_append, ← List.cons_append, List.getLast?_append]
            rfl
          have hparted := LeftAt.parted (u := '/' :: '*' :: (t.take n ++ ['*', '/']))
            (s := t.drop (n + 2)) (by simpa using hplace) (by simp)
            (parts_of_last (a := '/') hlast (by decide))
          have hwidth : pos + 4 + width (t.take n) =
              pos + width ('/' :: '*' :: (t.take n ++ ['*', '/'])) := by
            simp only [width_cons, width_append, width_nil, show '/'.utf8Size = 1 from rfl,
              show '*'.utf8Size = 1 from rfl]
            omega
          rwa [hwidth]
        rw [scanPieces_block hplace hn, piecesFrom_block pos broken previous hn,
          scanPieces_eq hnext]
        cases piecesFrom (pos + 4 + width (t.take n)) (broken || (t.take n).contains '\n') previous
          (t.drop (n + 2)) <;> rfl
    rw [scanPieces_lexeme h hgap hline hblock]
    cases hl : lexemeAt previous pos c r with
    | error e =>
      rw [piecesFrom, if_neg hgap, if_neg hline, if_neg hblock, hl]
      rfl
    | ok x =>
      obtain ⟨l, n⟩ := x
      have hnext := LeftAt.parted (u := c :: r.take n) (s := r.drop n)
        (by rwa [List.cons_append, List.take_append_drop]) (by simp) (parts_of_lexemeAt hl)
      simp only [Except.map, lexemeStop, of_ok_bind]
      rw [piecesFrom_lexeme hgap hline hblock hl, scanPieces_eq hnext, width_cons, ← Nat.add_assoc]
      cases piecesFrom (pos + c.utf8Size + width (r.take n)) false (some l) (r.drop n) <;> rfl
termination_by s => s.length
decreasing_by all_goals subst_vars; simp only [List.length_cons, List.length_drop]; omega

/-- Cutting up a text by byte offsets gives the tokens and comments of the text. -/
theorem tokenize_eq (text : List Char) : tokenize text = of (Source.tokenize text) := by
  rw [tokenize, scanPieces_eq (Parted.start text), Source.tokenize]
  cases piecesFrom 0 false none text <;> rfl

end Pieces

end CallContract.Source.Checked
