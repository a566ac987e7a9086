import CallContract.Source.Lexer

/-!
# How a text is cut up

A lexeme is read in one of six ways (`Scanned`) : which one is told by its first character, by
whether a digit follows it, and by whether a regular expression may follow the last lexeme. A text
is cut up from the front, where a blank, a comment or a lexeme stands (`CutUp`). What holds of all
lexemes or of all texts that can be cut up is proved by these cases and by induction on them.
-/

namespace CallContract.Source

theorem eq_ok_of_map_eq {ε α β : Type} {f : α → β} {x : Except ε α} {b : β}
    (h : x.map f = .ok b) : ∃ a, x = .ok a ∧ f a = b := by
  cases x with
  | error e => cases h
  | ok a => exact ⟨a, rfl, Except.ok.inj h⟩

theorem eq_error_of_map_eq {ε α β : Type} {f : α → β} {x : Except ε α} {e : ε}
    (h : x.map f = .error e) : x = .error e := by
  cases x with
  | error e' => cases h; rfl
  | ok a => cases h

section Lexemes

variable {previous : Option Lexeme} {pos n : Nat} {c : Char} {r : List Char} {l : Lexeme}

/-- What starts a number : a digit, or a point in front of a digit. -/
abbrev StartsNumber (c : Char) (r : List Char) : Prop :=
  c.isDigit ∨ (c = '.' ∧ (r.head?.any Char.isDigit))

/-- The lexeme that starts with `c` and goes on in `r`, and how many characters of `r` belong to
it. -/
inductive Scanned (previous : Option Lexeme) (pos : Nat) (c : Char) (r : List Char) :
    Lexeme → Nat → Prop
  | string {v : List Char} {n : Nat} : c = '"' ∨ c = '\x27' → stringBody c r = .ok (v, n) →
    Scanned previous pos c r (.string (String.ofList v)) n
  | template {body : Option (List Char)} {n : Nat} : ¬(c = '"' ∨ c = '\x27') → c = '\x60' →
    templateBody pos (pos + 1) r = .ok (body, n) →
    Scanned previous pos c r (.template (body.map String.ofList)) n
  | number {n : Nat} : ¬(c = '"' ∨ c = '\x27') → c ≠ '\x60' → StartsNumber c r →
    n = numberLength (if c = '.' then [] else [c]) r →
    Scanned previous pos c r (.number (String.ofList (c :: r.take n))) n
  | regex {n : Nat} : ¬(c = '"' ∨ c = '\x27') → c ≠ '\x60' → ¬StartsNumber c r →
    c = '/' ∧ regexMayFollow previous → regexLength? false r = some n →
    Scanned previous pos c r .regex n
  | word {n : Nat} : ¬(c = '"' ∨ c = '\x27') → c ≠ '\x60' → ¬StartsNumber c r →
    ¬(c = '/' ∧ regexMayFollow previous) → startsWord c → n = (r.takeWhile continuesWord).length →
    Scanned previous pos c r (.word (String.ofList (c :: r.take n))) n
  | operator {o : String} : ¬(c = '"' ∨ c = '\x27') → c ≠ '\x60' → ¬StartsNumber c r →
    ¬(c = '/' ∧ regexMayFollow previous) → ¬startsWord c → operator? (c :: r) = some o →
    Scanned previous pos c r (operatorLexeme o) (o.length - 1)

theorem scanned_of_lexemeAt (h : lexemeAt previous pos c r = .ok (l, n)) :
    Scanned previous pos c r l n := by
  unfold lexemeAt at h
  split at h
  · rename_i hquote
    split at h
    · cases h
    rename_i v m hm
    cases h
    exact .string hquote hm
  rename_i hquote
  split at h
  · rename_i hback
    split at h
    · cases h
    rename_i body m hm
    cases h
    exact .template hquote hback hm
  rename_i hback
  split at h
  · rename_i hnumber
    cases h
    exact .number hquote hback hnumber rfl
  rename_i hnumber
  split at h
  · rename_i hregex
    split at h
    · cases h
    rename_i m hm
    cases h
    exact .regex hquote hback hnumber hregex hm
  rename_i hregex
  split at h
  · rename_i hword
    cases h
    exact .word hquote hback hnumber hregex hword rfl
  rename_i hword
  split at h
  · cases h
  rename_i o ho
  cases h
  exact .operator hquote hback hnumber hregex hword ho

theorem Scanned.lexemeAt_eq (h : Scanned previous pos c r l n) :
    lexemeAt previous pos c r = .ok (l, n) := by
  unfold lexemeAt
  cases h with
  | string hquote hbody => rw [if_pos hquote, hbody]
  | template hquote hback hbody => rw [if_neg hquote, if_pos hback, hbody]
  | number hquote hback hnumber hn => rw [if_neg hquote, if_neg hback, if_pos hnumber, hn]
  | regex hquote hback hnumber hregex hn =>
    rw [if_neg hquote, if_neg hback, if_neg hnumber, if_pos hregex, hn]
  | word hquote hback hnumber hregex hword hn =>
    rw [if_neg hquote, if_neg hback, if_neg hnumber, if_neg hregex, if_pos hword, hn]
  | operator hquote hback hnumber hregex hword ho =>
    rw [if_neg hquote, if_neg hback, if_neg hnumber, if_neg hregex, if_neg hword, ho]

end Lexemes

/-- The text `s` at byte `pos` is cut up into the pieces `p`, where `previous` is the last lexeme in
front of it and `broken` says whether a line break came since : a blank, a comment or a token stands
in front of what is cut up next. -/
inductive CutUp : Nat → Bool → Option Lexeme → List Char → Pieces → Prop
  | nil {pos : Nat} {broken : Bool} {previous : Option Lexeme} :
    CutUp pos broken previous [] ⟨[], []⟩
  | gap {pos : Nat} {broken : Bool} {previous : Option Lexeme} {c : Char} {r : List Char}
    {p : Pieces} : isGap c = true → CutUp (pos + 1) (broken || c = '\n') previous r p →
    CutUp pos broken previous (c :: r) p
  | line {pos : Nat} {broken : Bool} {previous : Option Lexeme} {r : List Char} {p : Pieces} :
    CutUp (pos + 2 + width (r.takeWhile (· ≠ '\n'))) broken previous
      (r.drop (r.takeWhile (· ≠ '\n')).length) p →
    CutUp pos broken previous ('/' :: '/' :: r)
      { p with comments := ⟨false, String.ofList (r.takeWhile (· ≠ '\n')), pos,
        pos + 2 + width (r.takeWhile (· ≠ '\n'))⟩ :: p.comments }
  | block {pos n : Nat} {broken : Bool} {previous : Option Lexeme} {r : List Char} {p : Pieces} :
    blockLength? r = some n →
    CutUp (pos + 4 + width (r.take n)) (broken || (r.take n).contains '\n') previous
      (r.drop (n + 2)) p →
    CutUp pos broken previous ('/' :: '*' :: r)
      { p with comments := ⟨true, String.ofList (r.take n), pos,
        pos + 4 + width (r.take n)⟩ :: p.comments }
  | lexeme {pos n : Nat} {broken : Bool} {previous : Option Lexeme} {c : Char} {r : List Char}
    {l : Lexeme} {p : Pieces} : ¬isGap c = true → ¬(c = '/' ∧ r.head? = some '/') →
    ¬(c = '/' ∧ r.head? = some '*') → lexemeAt previous pos c r = .ok (l, n) →
    CutUp (pos + c.utf8Size + width (r.take n)) false (some l) (r.drop n) p →
    CutUp pos broken previous (c :: r)
      { p with tokens := ⟨l, pos, pos + c.utf8Size + width (r.take n), broken⟩ :: p.tokens }

theorem cutUp_of_piecesFrom {pos : Nat} {broken : Bool} {previous : Option Lexeme} {s : List Char}
    {p : Pieces} (h : piecesFrom pos broken previous s = .ok p) :
    CutUp pos broken previous s p := by
  fun_induction piecesFrom pos broken previous s generalizing p with
  | case1 => cases h; exact .nil
  | case2 pos broken previous c r hc ih => exact .gap hc (ih h)
  | case3 => cases h
  | case4 =>
    rename_i pos broken previous c r _ hc text stop q hq ih
    obtain ⟨rfl, hr⟩ := hc
    obtain ⟨r, rfl⟩ := List.head?_eq_some_iff.mp hr
    have hdrop : ('/' :: r).drop (1 + text.length) = r.drop text.length := by
      rw [Nat.add_comm, List.drop_succ_cons]
    cases h
    exact .line (hdrop ▸ ih hq)
  | case5 => cases h
  | case6 => cases h
  | case7 =>
    rename_i pos broken previous c r _ _ hc n hn text stop q hq ih
    obtain ⟨rfl, hr⟩ := hc
    obtain ⟨r, rfl⟩ := List.head?_eq_some_iff.mp hr
    cases h
    exact .block (r := r) hn (ih hq)
  | case8 => cases h
  | case9 => cases h
  | case10 =>
    rename_i pos broken previous c r hgap hline hblock lexeme n hl stop q hq ih
    cases h
    exact .lexeme hgap hline hblock hl (ih hq)

end CallContract.Source
