import CallContract.Proofs.Source.Checked.Access
import CallContract.Proofs.Source.Lookahead
import CallContract.Source.Checked.Lexer

/-!
# Strings and templates, read by offset

The scanners of string literals and templates stop where `stringBody` and `templateBody` say, and
no check fails in them (`scanString_eq`, `scanTemplate_eq`). Behind a backslash the scanner of
templates may come to stand inside a character; it goes over the other bytes of it one by one,
because none of them is ASCII.
-/

namespace CallContract.Source.Checked

open CallContract.Json (isHighHalf isLowHalf)

/-! ## String literals -/

theorem joinHalves_eq {high low : Nat} (hh : isHighHalf high = true) (hl : isLowHalf low = true) :
    joinHalves high low = some (some (Json.joinHalves high low)) := by
  simp only [isHighHalf, isLowHalf, Bool.and_eq_true, decide_eq_true_eq] at hh hl
  have hvalid : (0x10000 + (high - 0xd800) * 0x400 + (low - 0xdc00)).isValidChar :=
    Or.inr ⟨by omega, by omega⟩
  rw [joinHalves, subtract?_of_le hh.1, subtract?_of_le hl.1]
  exact congrArg some (if_pos hvalid)

theorem unicodeEscape_eq (s : List Char) : unicodeEscape s = some (unicodeEscape? s) := by
  fun_cases unicodeEscape s with
  | case1 => rfl
  | case5 a b c d hbrace high hhigh hhalf r low hlow hlen hhalf' =>
    simp [unicodeEscape?, joinHalves_eq hhalf hhalf', *]
  | _ => simp [unicodeEscape?, *]

theorem escape_eq (s : List Char) : escape s = some (escape? s) := by
  fun_cases escape s with
  | case1 s => rw [unicodeEscape_eq]; rfl
  | case2 => rfl

theorem scanCharacters_eq (quote : Char) (s : List Char) :
    scanCharacters quote s = of (stringBody quote s) := by
  fun_induction stringBody quote s with
  | case1 => rw [scanCharacters]; rfl
  | case2 r => rw [scanCharacters]; exact if_pos rfl
  | case3 r hq => rw [scanCharacters]; simp only [if_neg hq, if_pos]; rfl
  | case4 r hr hq hn => rw [scanCharacters]; simp only [if_neg hq, if_neg hn, if_pos, hr]; rfl
  | case5 r hr he hq hn =>
    rw [scanCharacters]
    simp only [if_neg hq, if_neg hn, if_pos, if_neg hr, escape_eq, he, lift_bind]
    rfl
  | case6 r hr cs n he e hb hq hn ih =>
    rw [scanCharacters]
    simp only [if_neg hq, if_neg hn, if_pos, if_neg hr, escape_eq, he, lift_bind, ih, hb]
    rfl
  | case7 r hr cs n he t k hb hq hn ih =>
    rw [scanCharacters]
    simp only [if_neg hq, if_neg hn, if_pos, if_neg hr, escape_eq, he, lift_bind, ih, hb]
    rfl
  | case8 c r hq hn hb e he ih =>
    rw [scanCharacters]
    simp only [if_neg hq, if_neg hn, if_neg hb, ih, he]
    rfl
  | case9 c r hq hn hb t k he ih =>
    rw [scanCharacters]
    simp only [if_neg hq, if_neg hn, if_neg hb, ih, he]
    rfl

/-- What a reader of the characters behind a place gives : a refusal at the place, or a value and
where it stops. -/
def located {α : Type} (pos : Nat) (r : List Char) (x : Except Cause (α × Nat)) :
    Except Error (α × Nat) :=
  match x with
  | .error e => .error ⟨pos, e⟩
  | .ok (a, n) => .ok (a, pos + 1 + width (r.take n))

section Templates

variable {text : List Char}

theorem scanString_eq {pos : Nat} {c : Char} {r : List Char} (h : LeftAt text pos (c :: r))
    (hc : c.toNat < 0x80) : scanString text pos = of (located pos r (stringBody c r)) := by
  rw [scanString, h.byte?_of_lt hc, lift_bind, (h.tail_of_lt hc).rest?, lift_bind,
    scanCharacters_eq]
  cases stringBody c r <;> rfl

/-! ## Templates -/

/-- The scanner of templates goes over bytes that are not ASCII. -/
theorem scanTemplate_next (start : Nat) (divided : Bool) (pos : Nat) (b : Char)
    (h : byte? text pos = some b) (hb : 0x80 ≤ b.toNat) :
    scanTemplate text start pos divided = scanTemplate text start (pos + 1) divided := by
  have hdollar : ¬(b = '$' ∧ byte? text (pos + 1) = some '{') :=
    fun hd => ne_of_le hb (by decide) hd.1
  rw [scanTemplate, if_pos (lt_of_byte? h), h, lift_bind, if_neg (ne_of_le hb (by decide)),
    if_neg (ne_of_le hb (by decide)), if_neg hdollar]

/-- The scanner of templates goes over a character with no role in them. -/
theorem scanTemplate_plain {start pos : Nat} {divided : Bool} {c : Char} {r : List Char}
    (h : LeftAt text pos (c :: r)) (hquote : c ≠ '\x60') (hback : c ≠ '\\')
    (hopen : ¬∃ t, c = '$' ∧ r = '{' :: t) :
    scanTemplate text start pos divided = scanTemplate text start (pos + c.utf8Size) divided := by
  rcases Nat.lt_or_ge c.toNat 0x80 with hc | hc
  · have hopen' : ¬(c = '$' ∧ byte? text (pos + 1) = some '{') := by
      rw [(h.tail_of_lt hc).byte?_eq_iff (by decide), List.head?_eq_some_iff]
      exact fun ⟨hd, t, hr⟩ => hopen ⟨t, hd, hr⟩
    rw [scanTemplate, if_pos h.lt, h.byte?_of_lt hc, lift_bind, if_neg hback, if_neg hquote,
      if_neg hopen', utf8Size_of_lt hc]
  · exact h.skip_char hc (scanTemplate_next start divided)

/-- The scanner of substitutions goes over bytes that are not ASCII. -/
theorem skipSubstitution_next (start depth : Nat) (pos : Nat) (b : Char)
    (h : byte? text pos = some b) (hb : 0x80 ≤ b.toNat) :
    skipSubstitution text start pos depth = skipSubstitution text start (pos + 1) depth := by
  have hne {a : Char} (ha : a.toNat < 0x80) : b ≠ a := ne_of_le hb ha
  have hquote : ¬(b = '"' ∨ b = '\x27') :=
    fun hq => hq.elim (hne (by decide)) (hne (by decide))
  rw [skipSubstitution, if_pos (lt_of_byte? h), h, lift_bind, if_neg (hne (by decide)),
    if_neg (hne (by decide)), if_neg hquote, if_neg (hne (by decide))]

/-- The scanner of substitutions goes over a character that opens a brace or has no role. -/
theorem skipSubstitution_plain {start pos depth : Nat} {c : Char} {r : List Char}
    (h : LeftAt text pos (c :: r)) (hclose : c ≠ '}') (hquote : ¬(c = '"' ∨ c = '\x27'))
    (htemplate : c ≠ '\x60') :
    skipSubstitution text start pos (depth + 1) =
      skipSubstitution text start (pos + c.utf8Size)
        ((if c = '{' then depth + 1 else depth) + 1) := by
  rcases Nat.lt_or_ge c.toNat 0x80 with hc | hc
  · rw [skipSubstitution, if_pos h.lt, h.byte?_of_lt hc, lift_bind, if_neg hclose, if_neg hquote,
      if_neg htemplate, utf8Size_of_lt hc]
    split <;> rfl
  · rw [if_neg (ne_of_le hc (by decide))]
    exact h.skip_char hc (skipSubstitution_next start (depth + 1))

/-- How far `k` and then `n` characters behind an ASCII character reach. -/
theorem width_skipped {c : Char} (hc : c.toNat < 0x80) (pos : Nat) (r : List Char) (k n : Nat) :
    pos + 1 + width (r.take k) + width ((r.drop k).take n) =
      pos + width ((c :: r).take (n + k + 1)) := by
  rw [List.take_succ_cons, width_cons, utf8Size_of_lt hc, Nat.add_comm n, width_take_add]
  omega

/-- What the scanner of templates gives that has gone over `u` and reads `x` in what is left. -/
def templateStop (u : List Char) (pos : Nat) (divided : Bool) (s : List Char)
    (x : Option (List Char) × Nat) : Option (List Char) × Nat :=
  (if divided then none else x.1.map (u ++ ·), pos + width (s.take x.2))

mutual

theorem scanTemplate_eq : ∀ {s u : List Char} {start pos : Nat} {divided : Bool},
    LeftAt text (start + 1) (u ++ s) → pos = start + 1 + width u →
      scanTemplate text start pos divided =
        of ((templateBody start pos s).map (templateStop u pos divided s))
  | [], u, start, pos, divided, h, hpos => by
    rw [scanTemplate, if_neg (hpos ▸ h.append.not_lt), templateBody]
    rfl
  | c :: r, u, start, pos, divided, h, hpos => by
    have hplace : LeftAt text pos (c :: r) := hpos ▸ h.append
    by_cases hquote : c = '\x60'
    · subst hquote
      have hu : stretch? text (start + 1) pos = some u := hpos ▸ h.stretch?
      rw [scanTemplate, if_pos hplace.lt, hplace.byte?_of_lt (by decide), lift_bind,
        if_neg (by decide), if_pos rfl, templateBody, templateText, hu]
      cases divided
      · exact congrArg (fun body => of (.ok (some body, _))) (List.append_nil u).symm
      · rfl
    by_cases hback : c = '\\'
    · subst hback
      rw [templateBody]
      by_cases hr : r = []
      · rw [hr] at hplace ⊢
        rw [scanTemplate, if_pos hplace.lt, hplace.byte?_of_lt (by decide), lift_bind, if_pos rfl,
          scanTemplate, if_neg hplace.not_add_two_lt, List.drop_nil, templateBody]
        rfl
      · obtain ⟨d, t, hr⟩ := List.exists_cons_of_ne_nil hr
        rw [hr] at h hplace ⊢
        have hpos' : pos + width ['\\', d] = start + 1 + width (u ++ ['\\', d]) := by
          rw [width_append, hpos, Nat.add_assoc]
        rw [scanTemplate, if_pos hplace.lt, hplace.byte?_of_lt (by decide), lift_bind, if_pos rfl,
          hplace.skip_escaped (scanTemplate_next start divided),
          scanTemplate_eq (s := t) (u := u ++ ['\\', d]) (by rwa [List.append_assoc]) hpos']
        simp only [List.take_succ_cons, List.take_zero, List.drop_succ_cons, List.drop_zero]
        cases templateBody start (pos + width ['\\', d]) t with
        | error e => rfl
        | ok x => simp [Except.map, templateStop, Option.map_map, Function.comp_def, Nat.add_assoc]
    by_cases hopen : ∃ t, c = '$' ∧ r = '{' :: t
    · obtain ⟨t, hc, hr⟩ := hopen
      rw [hc, hr] at h hplace
      have hinside : LeftAt text (pos + 2) t :=
        (hplace.tail_of_lt (by decide)).tail_of_lt (by decide)
      rw [hc, hr, scanTemplate, if_pos hplace.lt, hplace.byte?_of_lt (by decide), lift_bind,
        if_neg (by decide), if_neg (by decide),
        if_pos ⟨rfl, (hplace.tail_of_lt (by decide)).byte?_of_lt (by decide)⟩,
        skipSubstitution_eq hinside, templateBody]
      cases substitution (pos + 2) (pos + 2) 0 t with
      | error e => rfl
      | ok n =>
        have hplace' : LeftAt text (start + 1) ((u ++ '$' :: '{' :: t.take n) ++ t.drop n) := by
          simpa using h
        have hpos' : pos + 2 + width (t.take n) =
            start + 1 + width (u ++ '$' :: '{' :: t.take n) := by
          rw [hpos, width_append, width_cons, width_cons, show '$'.utf8Size = 1 from rfl,
            show '{'.utf8Size = 1 from rfl]
          omega
        have hfurther : pos < pos + 2 + width (t.take n) := by omega
        simp only [Except.map, of_ok_bind, further?_of_lt hplace.lt hfurther, lift_bind]
        rw [scanTemplate_eq hplace' hpos']
        cases templateBody start (pos + 2 + width (t.take n)) (t.drop n) with
        | error e => rfl
        | ok x =>
          have hwidth : pos + 2 + width (t.take n) + width ((t.drop n).take x.2) =
              pos + width (('$' :: '{' :: t).take (x.2 + n + 2)) := by
            rw [List.take_succ_cons, List.take_succ_cons, width_cons, width_cons,
              Nat.add_comm x.2, width_take_add, show '$'.utf8Size = 1 from rfl,
              show '{'.utf8Size = 1 from rfl]
            omega
          cases divided <;> exact congrArg (fun stop => of (.ok (none, stop))) hwidth
    · have hplain : ∀ r', c = '$' → r = '{' :: r' → False :=
        fun t hc hr => hopen ⟨t, hc, hr⟩
      have hnext : LeftAt text (start + 1) (u ++ [c] ++ r) := by rwa [List.append_assoc]
      have hpos' : pos + c.utf8Size = start + 1 + width (u ++ [c]) := by
        rw [width_append, hpos, Nat.add_assoc]
        rfl
      rw [scanTemplate_plain hplace hquote hback hopen, scanTemplate_eq hnext hpos',
        templateBody.eq_5 _ _ _ _ hquote hback hplain]
      cases templateBody start (pos + c.utf8Size) r with
      | error e => rfl
      | ok x => simp [Except.map, templateStop, Option.map_map, Function.comp_def, Nat.add_assoc]
termination_by s => s.length
decreasing_by all_goals subst_vars; simp only [List.length_cons, List.length_drop]; omega

theorem skipSubstitution_eq : ∀ {s : List Char} {start pos depth : Nat}, LeftAt text pos s →
    skipSubstitution text start pos (depth + 1) =
      of ((substitution start pos depth s).map fun n => pos + width (s.take n))
  | [], start, pos, depth, h => by
    rw [skipSubstitution, if_neg h.not_lt, substitution]
    rfl
  | c :: r, start, pos, depth, h => by
    rw [substitution.eq_def]
    simp only
    by_cases hclose : c = '}'
    · subst hclose
      rw [skipSubstitution, if_pos h.lt, h.byte?_of_lt (by decide), lift_bind,
        if_neg (by decide), if_pos rfl, subtract?_of_le (Nat.le_add_left 1 depth), lift_bind,
        Nat.add_sub_cancel, if_pos rfl]
      cases depth with
      | zero => rfl
      | succ d =>
        rw [if_neg (Nat.succ_ne_zero d), skipSubstitution_eq (h.tail_of_lt (by decide))]
        simp only
        cases substitution start (pos + 1) d r with
        | error e => rfl
        | ok n => exact congrArg (fun stop => of (.ok stop)) (Nat.add_assoc ..)
    rw [if_neg hclose]
    by_cases hquote : c = '"' ∨ c = '\x27'
    · have hc : c.toNat < 0x80 := by rcases hquote with rfl | rfl <;> decide
      have hbrace : c ≠ '{' := by rcases hquote with rfl | rfl <;> decide
      rw [if_pos hquote, skipSubstitution, if_pos h.lt, h.byte?_of_lt hc, lift_bind,
        if_neg hbrace, if_neg hclose, if_pos hquote, scanString_eq h hc]
      cases stringBody c r with
      | error e => rfl
      | ok x =>
        have hfurther : pos < pos + 1 + width (r.take x.2) := by omega
        simp only [located, of_ok_bind, further?_of_lt h.lt hfurther, lift_bind]
        rw [skipSubstitution_eq ((h.tail_of_lt hc).drop x.2)]
        cases substitution start (pos + 1 + width (r.take x.2)) depth (r.drop x.2) with
        | error e => rfl
        | ok n => exact congrArg (fun stop => of (.ok stop)) (width_skipped hc pos r x.2 n)
    rw [if_neg hquote]
    by_cases htemplate : c = '\x60'
    · subst htemplate
      have hinside : LeftAt text (pos + 1) ([] ++ r) := h.tail_of_lt (by decide)
      rw [if_pos rfl, skipSubstitution, if_pos h.lt, h.byte?_of_lt (by decide), lift_bind,
        if_neg (by decide), if_neg (by decide), if_neg (by decide), if_pos rfl,
        scanTemplate_eq hinside (rfl : pos + 1 = pos + 1 + width [])]
      cases templateBody pos (pos + 1) r with
      | error e => rfl
      | ok x =>
        have hfurther : pos < pos + 1 + width (r.take x.2) := by omega
        simp only [Except.map, templateStop, of_ok_bind, further?_of_lt h.lt hfurther, lift_bind]
        rw [skipSubstitution_eq ((h.tail_of_lt (by decide)).drop x.2)]
        cases substitution start (pos + 1 + width (r.take x.2)) depth (r.drop x.2) with
        | error e => rfl
        | ok n =>
          exact congrArg (fun stop => of (.ok stop)) (width_skipped (by decide) pos r x.2 n)
    rw [if_neg htemplate, skipSubstitution_plain h hclose hquote htemplate,
      skipSubstitution_eq h.tail]
    cases substitution start (pos + c.utf8Size) (if c = '{' then depth + 1 else depth) r with
    | error e => rfl
    | ok n => exact congrArg (fun stop => of (.ok stop)) (Nat.add_assoc ..)
termination_by s => s.length
decreasing_by all_goals subst_vars; simp only [List.length_cons, List.length_drop]; omega

end

/-- The scanner of templates, from the opening quote on. -/
theorem scanTemplate_start {pos : Nat} {r : List Char} (h : LeftAt text (pos + 1) r) :
    scanTemplate text pos (pos + 1) false =
      of ((templateBody pos (pos + 1) r).map fun x => (x.1, pos + 1 + width (r.take x.2))) := by
  rw [scanTemplate_eq (u := []) h (rfl : pos + 1 = pos + 1 + width [])]
  refine congrArg (fun f => of ((templateBody pos (pos + 1) r).map f)) (funext fun x => ?_)
  simp [templateStop]

end Templates

end CallContract.Source.Checked
