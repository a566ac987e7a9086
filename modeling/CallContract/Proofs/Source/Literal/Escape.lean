import CallContract.Proofs.Source.Literal.Units
import CallContract.Proofs.Source.Reaching
import Mathlib

/-!
# Escapes without their digits

Behind `\x` stand two hexadecimal digits, behind `\u` four, or any number of them in braces
(`NumericEscape`). A text is refused at a string literal with an escape that lacks some of them
(`tokenize_of_malformed`), wherever the escape stands : no escape in front of it reaches over it
(`exists_escape_of_stringBody`), and where two escapes for the halves of one character are read as
one, both have their digits.

The digits are read as an unsigned number, though, and such a number may have a plus sign. So `\x+1`
is the character U+0001 like `\x01` (`escape?_plus`).
-/

namespace CallContract.Source

/-! ## Digits -/

/-- One or more hexadecimal digits. -/
def IsHexRun (ds : List Char) : Prop := ds ≠ [] ∧ ∀ c ∈ ds, ∃ n, HexDigit n c

/-- Hexadecimal digits behind a plus sign. -/
def IsPlusRun (ds : List Char) : Prop := ∃ es, ds = '+' :: es ∧ IsHexRun es

theorem hexDigit_of_digitValue? {n : Nat} {c : Char} (h : Text.digitValue? 16 c = some n) :
    HexDigit n c := by
  have hall : ∀ m : Fin 128, (Text.digitValue? 16 (Char.ofNat m)).all (fun n =>
      hexDigits[n]?.any fun p => Char.ofNat m == p.1 || Char.ofNat m == p.2) = true := by decide
  have hc : c.toNat < 128 := Text.toNat_lt_of_isAlphanum (Text.isAlphanum_of_digitValue? h)
  have hdigit := hall ⟨c.toNat, hc⟩
  simp only [Char.ofNat_toNat, h, Option.all_some] at hdigit
  obtain ⟨p, hp, hdigit⟩ := (Option.any_eq_true _ _).mp hdigit
  exact ⟨p, hp, by simpa using hdigit⟩

theorem isHexRun_of_natural? {ds : List Char} {n : Nat} (h : Text.natural? 16 ds = some n) :
    IsHexRun ds := by
  have hall : ∀ {ds : List Char} {k m : Nat}, Text.naturalFrom? 16 k ds = some m →
      ∀ c ∈ ds, ∃ n, HexDigit n c := by
    intro ds
    induction ds with
    | nil => exact fun _ _ hc => (List.not_mem_nil hc).elim
    | cons c ds ih =>
      intro k m h
      obtain ⟨d, hd, h⟩ := Option.bind_eq_some_iff.mp h
      exact List.forall_mem_cons.mpr ⟨⟨d, hexDigit_of_digitValue? hd⟩, ih h⟩
  unfold Text.natural? at h
  split at h
  · cases h
  · rename_i hne
    exact ⟨by simpa using hne, hall h⟩

/-- What is read as a number is digits, or digits behind a plus sign. -/
theorem isRun_of_hexValue? {ds : List Char} {n : Nat} (h : hexValue? ds = some n) :
    IsHexRun ds ∨ IsPlusRun ds := by
  unfold hexValue? Text.unsigned? at h
  simp only at h
  obtain ⟨h, -⟩ := Option.filter_eq_some_iff.mp h
  split at h
  · exact Or.inr ⟨_, rfl, isHexRun_of_natural? h⟩
  · exact Or.inl (isHexRun_of_natural? h)

/-- A plus sign in front of digits is read as a zero. -/
theorem hexValue?_plus {ds : List Char} (h : ds ≠ []) :
    hexValue? ('+' :: ds) = hexValue? ('0' :: ds) := by
  have hzero : Text.natural? 16 ('0' :: ds) = Text.natural? 16 ds := by
    rw [Text.natural?, Text.natural?, if_neg (by simp), if_neg (by simpa using h)]
    rfl
  unfold hexValue? Text.unsigned?
  rw [hzero]
  rfl

/-! ## Escapes -/

/-- The escapes that spell a character by its number : `\x` with two digits, and `\u` with four
digits or with digits in braces. -/
inductive NumericEscape where
  | byte
  | unit
  | braced

namespace NumericEscape

/-- An escape with its digits, behind the backslash. -/
def text : NumericEscape → List Char → List Char
  | byte, ds => 'x' :: ds
  | unit, ds => 'u' :: ds
  | braced, ds => 'u' :: '\x7b' :: (ds ++ ['\x7d'])

/-- An escape has as many digits as it should. -/
def Fits : NumericEscape → List Char → Prop
  | byte, ds => ds.length = 2
  | unit, ds => ds.length = 4
  | braced, _ => True

end NumericEscape

/-- `IsEscape P e` : behind a backslash, `e` is an escape with digits that are `P`. -/
def IsEscape (P : List Char → Prop) (e : List Char) : Prop :=
  ∃ (k : NumericEscape) (ds : List Char), k.Fits ds ∧ P ds ∧ e = k.text ds

/-- A backslash starts an escape that spells a character by its number, but no escape with all of
its digits. -/
structure Malformed (r : List Char) : Prop where
  letter : r.head? = some 'x' ∨ r.head? = some 'u'
  digits : ¬∃ e, e <+: r ∧ IsEscape IsHexRun e

/-- The digits that are read, of which the first may be a plus sign. -/
def IsRun (ds : List Char) : Prop := IsHexRun ds ∨ IsPlusRun ds

theorem IsHexRun.not_mem {ds : List Char} (h : IsHexRun ds) {c : Char}
    (hc : Text.digitValue? 16 c = none) : c ∉ ds := by
  intro hmem
  obtain ⟨n, hn⟩ := h.2 c hmem
  rw [digitValue?_of_hexDigit hn] at hc
  cases hc

theorem IsRun.ne_back {ds : List Char} (h : IsRun ds) : ∀ c ∈ ds, c ≠ '\\' := by
  rintro c hc rfl
  rcases h with h | ⟨es, rfl, hes⟩
  · exact h.not_mem rfl hc
  · exact hes.not_mem rfl ((List.mem_cons.mp hc).resolve_left (by decide))

/-- An escape has a letter and no further backslash. -/
theorem IsEscape.eq_cons {e : List Char} (h : IsEscape IsRun e) :
    ∃ c es, e = c :: es ∧ ∀ d ∈ es, d ≠ '\\' := by
  obtain ⟨k, ds, -, hds, rfl⟩ := h
  cases k with
  | byte | unit => exact ⟨_, ds, rfl, hds.ne_back⟩
  | braced =>
    refine ⟨_, _, rfl, List.forall_mem_cons.mpr ⟨by decide, fun d hd => ?_⟩⟩
    rcases List.mem_append.mp hd with hd | hd
    · exact hds.ne_back d hd
    · rw [List.mem_singleton.mp hd]
      decide

/-! ## What an escape takes -/

/-- `Reads s rest` : of `s`, which stands behind a backslash, an escape takes all but `rest`. A
pair of escapes is read as one. -/
inductive Reads : List Char → List Char → Prop
  | letter {c : Char} {rest : List Char} : c ≠ 'x' → c ≠ 'u' → Reads (c :: rest) rest
  | numeric {e rest : List Char} : IsEscape IsRun e → Reads (e ++ rest) rest
  | pair {e e' rest : List Char} : IsEscape IsRun e → IsEscape IsRun e' →
    Reads (e ++ '\\' :: (e' ++ rest)) rest

theorem reads_of_hexEscape? {s : List Char} {p : Char × Nat} (h : hexEscape? s = some p) :
    Reads ('x' :: s) (s.drop p.2) := by
  unfold hexEscape? at h
  split at h
  · rename_i a b t
    obtain ⟨c, hc, rfl⟩ := Option.map_eq_some_iff.mp h
    obtain ⟨n, hn, -⟩ := Option.bind_eq_some_iff.mp hc
    exact .numeric (e := ['x', a, b]) ⟨.byte, [a, b], rfl, isRun_of_hexValue? hn, rfl⟩
  · cases h

/-- Digits in braces go on to the end of the text if nothing closes them. -/
theorem reads_of_braced {s ds : List Char} {n : Nat} (hds : ds = s.takeWhile (· ≠ '\x7d'))
    (h : hexValue? ds = some n) :
    s.drop (ds.length + if ds.length < s.length then 1 else 0) = [] ∨
      Reads ('u' :: '\x7b' :: s) (s.drop (ds.length + if ds.length < s.length then 1 else 0)) := by
  have hsplit := List.takeWhile_append_dropWhile (p := fun c => decide (c ≠ '\x7d')) (l := s)
  rw [← hds] at hsplit
  cases hrest : s.dropWhile (fun c => decide (c ≠ '\x7d')) with
  | nil =>
    rw [hrest, List.append_nil] at hsplit
    exact Or.inl (List.drop_eq_nil_of_le (by rw [← hsplit]; exact Nat.le_add_right _ _))
  | cons c t =>
    have hhead := List.head?_dropWhile_not (fun c => decide (c ≠ '\x7d')) s
    rw [hrest, List.head?_cons] at hhead
    obtain rfl : c = '\x7d' := by simpa using hhead
    rw [hrest] at hsplit
    have hlt : ds.length < s.length := by
      rw [← hsplit, List.length_append, List.length_cons]
      exact Nat.lt_add_of_pos_right (Nat.succ_pos _)
    have hdrop : s.drop (ds.length + 1) = t := by
      rw [← hsplit, List.drop_append, List.drop_eq_nil_of_le (Nat.le_succ _),
        Nat.add_sub_cancel_left]
      rfl
    have hescape : IsEscape IsRun (NumericEscape.text .braced ds) :=
      ⟨.braced, ds, trivial, isRun_of_hexValue? h, rfl⟩
    have hwhole : 'u' :: '\x7b' :: s = NumericEscape.text .braced ds ++ t := by
      simp [NumericEscape.text, ← hsplit]
    rw [if_pos hlt, hdrop, hwhole]
    exact Or.inr (.numeric hescape)

theorem reads_of_unicodeEscape? {s : List Char} {p : Char × Nat} (h : unicodeEscape? s = some p) :
    s.drop p.2 = [] ∨ Reads ('u' :: s) (s.drop p.2) := by
  unfold unicodeEscape? at h
  split at h
  · rename_i t
    obtain ⟨c, hc, rfl⟩ := Option.map_eq_some_iff.mp h
    obtain ⟨n, hn, -⟩ := Option.bind_eq_some_iff.mp hc
    have hreads := reads_of_braced rfl hn
    simp only [Nat.add_assoc, Nat.add_comm 1]
    exact hreads
  · rename_i a b c d t _
    split at h
    · cases h
    rename_i high hhigh
    have hfirst : IsEscape IsRun ['u', a, b, c, d] :=
      ⟨.unit, [a, b, c, d], rfl, isRun_of_hexValue? hhigh, rfl⟩
    have hreads : Reads ('u' :: a :: b :: c :: d :: t) t := .numeric hfirst
    split at h
    · split at h
      · rename_i r
        split at h
        · cases h
        rename_i low hlow
        split at h
        · cases h
        rename_i hlen
        split at h
        · -- both halves are read, and what follows them is left
          obtain rfl := Option.some.inj h
          have hsecond : IsEscape IsRun ('u' :: r.take 4) :=
            ⟨.unit, r.take 4, List.length_take_of_le (by omega), isRun_of_hexValue? hlow, rfl⟩
          have hwhole : 'u' :: r.take 4 ++ r.drop 4 = 'u' :: r :=
            congrArg _ (List.take_append_drop 4 r)
          have hpair : Reads (['u', a, b, c, d] ++ '\\' :: ('u' :: r.take 4 ++ r.drop 4))
              (r.drop 4) := .pair hfirst hsecond
          rw [hwhole] at hpair
          exact Or.inr hpair
        · obtain rfl := Option.some.inj h
          exact Or.inr hreads
      · obtain rfl := Option.some.inj h
        exact Or.inr hreads
    · obtain rfl := Option.some.inj h
      exact Or.inr hreads
  · cases h

theorem reads_of_escape? {s cs : List Char} {n : Nat} (h : escape? s = some (cs, n))
    (hrest : s.drop n ≠ []) : Reads s (s.drop n) := by
  rcases s with _ | ⟨c, s⟩
  · cases h
  by_cases hx : c = 'x'
  · subst hx
    obtain ⟨p, hp, heq⟩ := Option.map_eq_some_iff.mp h
    cases heq
    exact reads_of_hexEscape? hp
  by_cases hu : c = 'u'
  · subst hu
    obtain ⟨p, hp, heq⟩ := Option.map_eq_some_iff.mp h
    cases heq
    exact (reads_of_unicodeEscape? hp).resolve_left hrest
  · have hone : n = 1 := by
      unfold escape? at h
      simp only at h
      split at h
      all_goals first | (cases h; rfl) | contradiction
    subst hone
    exact .letter hx hu

/-! ## Literals -/

section Literals

variable {q : Char} {s front r : List Char} {p : List Char × Nat}

theorem exists_reads_of_stringBody (hq : IsQuote q) (h : stringBody q ('\\' :: s) = .ok p) :
    ∃ rest p', Reads s rest ∧ stringBody q rest = .ok p' := by
  have hback : '\\' ≠ q := by rcases hq with rfl | rfl <;> decide
  rw [stringBody, if_neg hback, if_neg (by decide), if_pos rfl] at h
  split at h
  · cases h
  split at h
  · cases h
  rename_i cs n hescape
  split at h
  · cases h
  rename_i v k hbody
  refine ⟨_, _, reads_of_escape? hescape fun hnil => ?_, hbody⟩
  rw [hnil, stringBody] at hbody
  cases hbody

theorem exists_stringBody_of_cons {c : Char} (hquote : c ≠ q) (hback : c ≠ '\\')
    (h : stringBody q (c :: s) = .ok p) : ∃ p', stringBody q s = .ok p' := by
  rw [stringBody, if_neg hquote] at h
  split at h
  · cases h
  split at h
  · cases h
  rename_i hbody
  exact ⟨_, hbody⟩

/-- Of what is inside a literal, characters other than backslashes leave an inside. -/
theorem exists_front_of_append {es t : List Char} (hfront : Inside q front)
    (hes : ∀ c ∈ es, c ≠ '\\') (h : front ++ '\\' :: r = es ++ t) :
    ∃ front', t = front' ++ '\\' :: r ∧ Inside q front' ∧ front'.length ≤ front.length := by
  rcases List.append_eq_append_iff.mp h with ⟨a, hes', htail⟩ | ⟨a, rfl, ht⟩
  · cases a with
    | nil =>
      rw [List.append_nil] at hes'
      exact ⟨[], htail.symm, .nil, Nat.zero_le _⟩
    | cons c a =>
      obtain ⟨rfl, -⟩ := List.cons.inj htail
      exact absurd rfl (hes '\\' (by rw [hes']; simp))
  · exact ⟨a, ht, .of_append hes hfront, by simp⟩

/-- An escape in a literal that is read has its digits, or a plus sign and digits. No escape in
front of it reaches over it : a pair of escapes has the digits of both. -/
theorem exists_escape_of_stringBody (hq : IsQuote q) (hfront : Inside q front)
    (hr : r.head? = some 'x' ∨ r.head? = some 'u')
    (h : stringBody q (front ++ '\\' :: r) = .ok p) : ∃ e, e <+: r ∧ IsEscape IsRun e := by
  induction hlen : front.length using Nat.strong_induction_on generalizing front p with
  | _ n ih =>
  subst hlen
  rcases hfront with _ | ⟨hquote, hback, hfront⟩ | @⟨e₀, front, hfront⟩
  · obtain ⟨rest, p', hreads, -⟩ := exists_reads_of_stringBody hq h
    cases hreads with
    | letter hx hu =>
      rcases hr with hr | hr
      · exact absurd (Option.some.inj hr) hx
      · exact absurd (Option.some.inj hr) hu
    | numeric he | pair he => exact ⟨_, List.prefix_append _ _, he⟩
  · obtain ⟨p', h'⟩ := exists_stringBody_of_cons hquote hback h
    exact ih _ (Nat.lt_succ_self _) hfront h' rfl
  -- an escape is in front, so what it takes has to be set apart from what is inside
  rw [List.cons_append, List.cons_append] at h
  obtain ⟨rest, p', hreads, h'⟩ := exists_reads_of_stringBody hq h
  generalize hs : e₀ :: (front ++ '\\' :: r) = s at hreads
  have hshort : ∀ {m : Nat}, m ≤ front.length → m < ('\\' :: e₀ :: front).length := fun hle =>
    Nat.lt_succ_of_le (Nat.le_succ_of_le hle)
  cases hreads with
  | letter =>
    obtain ⟨-, rfl⟩ := List.cons.inj hs
    exact ih _ (hshort (Nat.le_refl _)) hfront h' rfl
  | numeric he =>
    obtain ⟨c, es, rfl, hes⟩ := he.eq_cons
    obtain ⟨front', rfl, hfront', hle⟩ := exists_front_of_append hfront hes (List.cons.inj hs).2
    exact ih _ (hshort hle) hfront' h' rfl
  | @pair e e' rest he he' =>
    obtain ⟨c, es, rfl, hes⟩ := he.eq_cons
    obtain ⟨front', htail, hfront', hle⟩ := exists_front_of_append hfront hes (List.cons.inj hs).2
    rcases hfront' with _ | ⟨-, hback, -⟩ | @⟨e₁, front', hfront'⟩
    · exact ⟨e', ⟨rest, (List.cons.inj htail).2⟩, he'⟩
    · exact absurd (List.cons.inj htail).1.symm hback
    · obtain ⟨d, es', rfl, hes'⟩ := he'.eq_cons
      have hbehind := (List.cons.inj (List.cons.inj htail).2).2
      obtain ⟨front'', rfl, hfront'', hle'⟩ := exists_front_of_append hfront' hes' hbehind.symm
      have hwithin : front'.length ≤ ('\\' :: e₁ :: front').length := Nat.le_add_right _ 2
      exact ih _ (hshort ((hle'.trans hwithin).trans hle)) hfront'' h' rfl

end Literals

/-- An escape with a plus sign for its first digit is read as with a zero there. -/
theorem escape?_plus {k : NumericEscape} {ds : List Char} (hfits : k.Fits ('+' :: ds))
    (hds : IsHexRun ds) (t : List Char) :
    escape? (k.text ('+' :: ds) ++ t) = escape? (k.text ('0' :: ds) ++ t) := by
  have hvalue := hexValue?_plus hds.1
  cases k with
  | byte =>
    obtain ⟨d, rfl⟩ := List.length_eq_one_iff.mp (Nat.succ.inj hfits)
    simp only [NumericEscape.text, List.cons_append, List.nil_append, escape?, hexEscape?, hvalue]
  | unit =>
    obtain ⟨b, c, d, rfl⟩ := List.length_eq_three.mp (Nat.succ.inj hfits)
    have hunit : unicodeEscape? ('+' :: b :: c :: d :: t) =
        unicodeEscape? ('0' :: b :: c :: d :: t) := by
      rw [unicodeEscape?.eq_2 _ _ _ _ _ (by decide), unicodeEscape?.eq_2 _ _ _ _ _ (by decide),
        hvalue]
    exact congrArg (Option.map _) hunit
  | braced =>
    have hdigits : ∀ c ∈ ds, decide (c ≠ '\x7d') = true := fun c hc =>
      decide_eq_true fun heq => hds.not_mem (c := '\x7d') rfl (heq ▸ hc)
    have htake : (ds ++ '\x7d' :: t).takeWhile (· ≠ '\x7d') = ds := by
      rw [List.takeWhile_append_of_pos hdigits, List.takeWhile_cons_of_neg (by decide),
        List.append_nil]
    have hbraced : unicodeEscape? ('\x7b' :: '+' :: (ds ++ '\x7d' :: t)) =
        unicodeEscape? ('\x7b' :: '0' :: (ds ++ '\x7d' :: t)) := by
      rw [unicodeEscape?, unicodeEscape?, List.takeWhile_cons_of_pos (by decide),
        List.takeWhile_cons_of_pos (by decide), htake, hvalue]
      rfl
    simp only [NumericEscape.text, List.cons_append, List.append_assoc, List.nil_append]
    exact congrArg (Option.map _) hbraced

/-- An escape without its digits, in a literal that the lexer reaches, refuses the text at the quote
of the literal, unless a plus sign stands for the first digit : then it is read as a zero. -/
theorem tokenize_of_malformed {source front r : List Char} {pos : Nat} {q : Char}
    (hreach : Reaches source pos q (front ++ '\\' :: r)) (hfront : Inside q front)
    (hr : Malformed r) :
    (∃ before, source = before ++ q :: (front ++ '\\' :: r) ∧ pos = width before) ∧
      ((¬∃ e, e <+: r ∧ IsEscape IsPlusRun e) →
        ∃ cause, cause.IsOfString ∧ tokenize source = .error ⟨pos, cause⟩) ∧
      ∀ (k : NumericEscape) (ds t : List Char), k.Fits ('+' :: ds) → IsHexRun ds →
        r = k.text ('+' :: ds) ++ t → escape? r = escape? (k.text ('0' :: ds) ++ t) := by
  refine ⟨hreach.exists_front, fun hplus => ?_, fun k ds t hfits hds hrt => ?_⟩
  · cases hbody : stringBody q (front ++ '\\' :: r) with
    | error cause => exact ⟨cause, isOfString_of_stringBody hbody, hreach.tokenize_eq hbody⟩
    | ok p =>
      obtain ⟨e, he, k, ds, hfits, hds | hds, rfl⟩ :=
        exists_escape_of_stringBody hreach.isQuote hfront hr.letter hbody
      · exact absurd ⟨_, he, k, ds, hfits, hds, rfl⟩ hr.digits
      · exact absurd ⟨_, he, k, ds, hfits, hds, rfl⟩ hplus
  · rw [hrt]
    exact escape?_plus hfits hds t

theorem malformed_byte {a b : Char} (s : List Char)
    (h : Text.digitValue? 16 a = none ∨ Text.digitValue? 16 b = none) :
    Malformed ('x' :: a :: b :: s) where
  letter := Or.inl rfl
  digits := by
    rintro ⟨_, ⟨t, ht⟩, k, ds, hfits, hds, rfl⟩
    cases k with
    | byte =>
      obtain ⟨a', b', rfl⟩ := List.length_eq_two.mp hfits
      obtain ⟨-, rfl, rfl, -⟩ : 'x' = 'x' ∧ a' = a ∧ b' = b ∧ t = s := by
        simpa [NumericEscape.text] using ht
      rcases h with h | h
      · exact hds.not_mem h (by simp)
      · exact hds.not_mem h (by simp)
    | unit | braced => cases ht

/-- An escape of one digit in a literal of a substitution. -/
def nestedByte : List Char := "\x60$\x7b\"\\x1\"\x7d\x60".toList

theorem tokenize_of_malformed_nested :
    Reaches nestedByte 3 '"' ([] ++ '\\' :: "x1\"\x7d\x60".toList) ∧ Inside '"' [] ∧
      Malformed "x1\"\x7d\x60".toList ∧
      ∃ cause, cause.IsOfString ∧ tokenize nestedByte = .error ⟨3, cause⟩ := by
  have hreach : Reaches nestedByte 3 '"' ([] ++ '\\' :: "x1\"\x7d\x60".toList) :=
    .head .backtick (.head .enter (.head (.inner (Or.inl rfl)) .refl))
  have hr : Malformed "x1\"\x7d\x60".toList := malformed_byte "\x7d\x60".toList (Or.inr rfl)
  refine ⟨hreach, .nil, hr, (tokenize_of_malformed hreach .nil hr).2.1 ?_⟩
  rintro ⟨_, ⟨t, ht⟩, k, _, -, ⟨ds, rfl, -⟩, rfl⟩
  cases k <;> cases ht

/-- Not every escape without its digits refuses the text. -/
theorem not_forall_refused : ¬∀ (source front r : List Char) (pos : Nat) (q : Char),
    Reaches source pos q (front ++ '\\' :: r) → Inside q front → Malformed r →
      ∃ cause, tokenize source = .error ⟨pos, cause⟩ := by
  intro h
  have hreach : Reaches "\"\\x+1\"".toList 0 '"' "\\x+1\"".toList :=
    .head (.quoted (Or.inl rfl)) .refl
  obtain ⟨cause, hcause⟩ := h _ [] _ _ _ hreach .nil (malformed_byte ['"'] (Or.inl rfl))
  have hclose : stringBody '"' ['"'] = .ok ([], 1) := by rw [stringBody, if_pos rfl]
  have hbody : stringBody '"' ("\\x+1".toList ++ ['"']) =
      .ok (['\x01'], "\\x+1".toList.length + 1) :=
    stringBody_escaped (w := ['+', '1']) (Or.inl rfl) (by decide) hclose
  have hread : IsStringLiteral "\"\\x+1\"".toList (String.ofList ['\x01']) :=
    isStringLiteral_quoted (Or.inl rfl) hbody
  rw [IsStringLiteral, hcause] at hread
  cases hread

end CallContract.Source
