import CallContract.Json.Reader
import CallContract.Source.Lexer

/-!
# Texts between quotes

A string literal of source text and a string of JSON text have escapes of their own, but both end
at the first quote that no backslash takes : their inside is an `Inside` (`inside_of_stringBody`,
`Json.inside_of_scanQuoted`). Where a text is cut into an inside, a quote and a rest, the cut
is the only one (`Inside.unique`), so one reader does not see an end that the other passes.

Escapes do not swallow points. A literal has all the points of its spelling and is not longer
(`inside_of_stringBody`), and a JSON string has a point if its spelling has one
(`Json.point_of_unescape?`).
-/

namespace CallContract

/-- `Inside q s` : in `s`, a backslash takes the character behind it, and no quote `q` stands
outside such a pair. -/
inductive Inside (q : Char) : List Char → Prop
  | nil : Inside q []
  | plain {c : Char} {s : List Char} : c ≠ q → c ≠ '\\' → Inside q s → Inside q (c :: s)
  | escaped {e : Char} {s : List Char} : Inside q s → Inside q ('\\' :: e :: s)

namespace Inside

variable {q : Char} {s t x y : List Char}

theorem append (hs : Inside q s) (ht : Inside q t) : Inside q (s ++ t) := by
  induction hs with
  | nil => exact ht
  | plain hq hb _ ih => exact plain hq hb ih
  | escaped _ ih => exact escaped ih

theorem of_forall : ∀ {s : List Char}, (∀ c ∈ s, c ≠ q ∧ c ≠ '\\') → Inside q s
  | [], _ => nil
  | c :: s, h => by
    obtain ⟨hc, hs⟩ := List.forall_mem_cons.mp h
    exact plain hc.1 hc.2 (of_forall hs)

/-- What follows a character that is no backslash. -/
theorem of_cons {c : Char} (h : Inside q (c :: s)) (hc : c ≠ '\\') : Inside q s := by
  cases h with
  | plain _ _ h => exact h
  | escaped _ => exact absurd rfl hc

theorem of_append : ∀ {s t : List Char}, (∀ c ∈ s, c ≠ '\\') → Inside q (s ++ t) → Inside q t
  | [], _, _, h => h
  | _ :: _, _, hs, h => by
    obtain ⟨hc, hs⟩ := List.forall_mem_cons.mp hs
    exact of_append hs (h.of_cons hc)

/-- What follows a backslash and the character that it takes. -/
theorem behind_escape {e : Char} (h : Inside q ('\\' :: e :: s)) : Inside q s := by
  cases h with
  | plain _ hback _ => exact absurd rfl hback
  | escaped h => exact h

/-- The first quote that no backslash takes is the same, however it was found. -/
theorem unique (hq : q ≠ '\\') (hs : Inside q s) (ht : Inside q t)
    (h : s ++ q :: x = t ++ q :: y) : s = t ∧ x = y := by
  induction hs generalizing t with
  | nil =>
    cases ht with
    | nil => exact ⟨rfl, (List.cons.inj h).2⟩
    | plain hne _ _ => exact absurd (List.cons.inj h).1.symm hne
    | escaped _ => exact absurd (List.cons.inj h).1 hq
  | @plain c s hne hb _ ih =>
    cases ht with
    | nil => exact absurd (List.cons.inj h).1 hne
    | plain _ _ ht =>
      obtain ⟨rfl, hrest⟩ := List.cons.inj h
      obtain ⟨rfl, hxy⟩ := ih ht hrest
      exact ⟨rfl, hxy⟩
    | escaped _ => exact absurd (List.cons.inj h).1 hb
  | @escaped e s _ ih =>
    cases ht with
    | nil => exact absurd (List.cons.inj h).1.symm hq
    | plain _ hb _ => exact absurd (List.cons.inj h).1.symm hb
    | escaped ht =>
      obtain ⟨rfl, hrest⟩ := List.cons.inj (List.cons.inj h).2
      obtain ⟨rfl, hxy⟩ := ih ht hrest
      exact ⟨rfl, hxy⟩

end Inside

/-! ## Digits of escapes -/

namespace Text

theorem isAlphanum_of_digitValue? {radix d : Nat} {c : Char} (h : digitValue? radix c = some d) :
    c.isAlphanum = true := by
  have hc : c.isAlphanum = (c.isUpper || c.isLower || c.isDigit) := rfl
  unfold digitValue? at h
  by_cases hdigit : c.isDigit = true
  · simp [hc, hdigit]
  by_cases hupper : c.isUpper = true
  · simp [hc, hupper]
  by_cases hlower : c.isLower = true
  · simp [hc, hlower]
  · simp [hdigit, hupper, hlower] at h

theorem toNat_lt_of_isAlphanum {c : Char} (h : c.isAlphanum = true) : c.toNat < 0x80 := by
  have hbelow : ∀ {n : UInt32}, n.toNat < 0x80 → c.val ≤ n → c.toNat < 0x80 := fun hn hle =>
    Nat.lt_of_le_of_lt (UInt32.le_iff_toNat_le.mp hle) hn
  have hc : (c.isUpper || c.isLower || c.isDigit) = true := h
  rw [Bool.or_eq_true, Bool.or_eq_true] at hc
  rcases hc with (hupper | hlower) | hdigit
  · exact hbelow (n := 'Z'.val) (by decide) (of_decide_eq_true hupper).2
  · exact hbelow (n := 'z'.val) (by decide) (of_decide_eq_true (Bool.and_eq_true_iff.mp hlower).2)
  · exact hbelow (n := '9'.val) (by decide) (of_decide_eq_true (Bool.and_eq_true_iff.mp hdigit).2)

theorem isAlphanum_of_naturalFrom? {radix : Nat} {s : List Char} :
    ∀ {n m : Nat}, naturalFrom? radix n s = some m → ∀ c ∈ s, c.isAlphanum = true := by
  induction s with
  | nil => exact fun _ _ hc => (List.not_mem_nil hc).elim
  | cons c s ih =>
    intro n m h
    obtain ⟨d, hd, h⟩ := Option.bind_eq_some_iff.mp h
    exact List.forall_mem_cons.mpr ⟨isAlphanum_of_digitValue? hd, ih h⟩

theorem isAlphanum_of_natural? {radix n : Nat} {s : List Char} (h : natural? radix s = some n) :
    ∀ c ∈ s, c.isAlphanum = true := by
  unfold natural? at h
  split at h
  · simp at h
  · exact isAlphanum_of_naturalFrom? h

end Text

/-- A character that neither ends a text between quotes, nor starts an escape, nor is a point. -/
structure Inert (c : Char) : Prop where
  double : c ≠ '"'
  single : c ≠ '\x27'
  back : c ≠ '\\'
  point : c ≠ '.'

theorem inert_of_isAlphanum {c : Char} (h : c.isAlphanum = true) : Inert c := by
  constructor <;> (rintro rfl; revert h; decide)

theorem inert_of_unsigned? {radix limit n : Nat} {s : List Char}
    (h : Text.unsigned? radix limit s = some n) : ∀ c ∈ s, Inert c := by
  unfold Text.unsigned? at h
  simp only at h
  obtain ⟨h, _⟩ := Option.filter_eq_some_iff.mp h
  split at h
  · refine List.forall_mem_cons.mpr ⟨⟨by decide, by decide, by decide, by decide⟩, fun c hc => ?_⟩
    exact inert_of_isAlphanum (Text.isAlphanum_of_natural? h c hc)
  · exact fun c hc => inert_of_isAlphanum (Text.isAlphanum_of_natural? h c hc)

theorem inert_braceOpen : Inert '\x7b' := by constructor <;> decide

theorem inert_braceClose : Inert '\x7d' := by constructor <;> decide

/-- The quotes of string literals. -/
def IsQuote (q : Char) : Prop := q = '"' ∨ q = '\x27'

theorem Inert.ne_quote {c q : Char} (hc : Inert c) (hq : IsQuote q) : c ≠ q := by
  rcases hq with rfl | rfl
  · exact hc.double
  · exact hc.single

theorem inside_of_inert {q : Char} (hq : IsQuote q) {s : List Char} (h : ∀ c ∈ s, Inert c) :
    Inside q s :=
  .of_forall fun c hc => ⟨(h c hc).ne_quote hq, (h c hc).back⟩

/-! ## String literals -/

namespace Source

/-- `Taken q s n` : an escape that takes the first `n` characters of `s` ends no text between
quotes and takes no point. -/
structure Taken (q : Char) (s : List Char) (n : Nat) : Prop where
  le_length : n ≤ s.length
  inside : Inside q (s.take n)
  point : '.' ∉ s.take n

theorem Taken.of_inert {q : Char} (hq : IsQuote q) {s t : List Char} (h : ∀ c ∈ s, Inert c) :
    Taken q (s ++ t) s.length where
  le_length := by simp
  inside := by rw [List.take_left]; exact inside_of_inert hq h
  point := by rw [List.take_left]; exact fun hc => (h _ hc).point rfl

theorem taken_hexEscape? {q : Char} (hq : IsQuote q) {s : List Char} {p : Char × Nat}
    (h : hexEscape? s = some p) : Taken q s p.2 := by
  unfold hexEscape? at h
  split at h
  · rename_i a b t
    obtain ⟨c, hc, rfl⟩ := Option.map_eq_some_iff.mp h
    obtain ⟨n, hn, _⟩ := Option.bind_eq_some_iff.mp hc
    exact Taken.of_inert (s := [a, b]) hq (inert_of_unsigned? hn)
  · simp at h

/-- An escape of digits in braces, which go on to the end where no brace closes them. -/
theorem taken_braced {q : Char} (hq : IsQuote q) {s digits : List Char}
    (hd : digits = s.takeWhile (· ≠ '\x7d')) (h : ∀ c ∈ digits, Inert c) :
    Taken q ('\x7b' :: s) (1 + digits.length + if digits.length < s.length then 1 else 0) := by
  have hsplit := List.takeWhile_append_dropWhile (p := fun c => decide (c ≠ '\x7d')) (l := s)
  have hhead := List.head?_dropWhile_not (fun c => decide (c ≠ '\x7d')) s
  rw [← hd] at hsplit
  cases hrest : s.dropWhile (fun c => decide (c ≠ '\x7d')) with
  | nil =>
    rw [hrest, List.append_nil] at hsplit
    have hall := List.forall_mem_cons.mpr ⟨inert_braceOpen, h⟩
    have htaken := Taken.of_inert hq (t := []) hall
    simpa [← hsplit, Nat.add_comm] using htaken
  | cons e r =>
    rw [hrest, List.head?_cons] at hhead
    obtain rfl : e = '\x7d' := by simpa using hhead
    rw [hrest] at hsplit
    have hall : ∀ c ∈ '\x7b' :: (digits ++ ['\x7d']), Inert c := by
      refine List.forall_mem_cons.mpr ⟨inert_braceOpen, fun c hc => ?_⟩
      rcases List.mem_append.mp hc with hc | hc
      · exact h c hc
      · rw [List.mem_singleton.mp hc]
        exact inert_braceClose
    have htaken := Taken.of_inert hq (t := r) hall
    simpa [← hsplit, Nat.add_comm] using htaken

/-- Two escapes of four digits each. -/
theorem taken_pair {q : Char} (hq : IsQuote q) {a b c d : Char} {s : List Char}
    (hfirst : ∀ x ∈ [a, b, c, d], Inert x) (hsecond : ∀ x ∈ s.take 4, Inert x)
    (hlen : 4 ≤ s.length) : Taken q (a :: b :: c :: d :: '\\' :: 'u' :: s) 10 := by
  have htake : (a :: b :: c :: d :: '\\' :: 'u' :: s).take 10 =
      [a, b, c, d] ++ '\\' :: 'u' :: s.take 4 := rfl
  refine ⟨by simp only [List.length_cons]; omega, ?_, ?_⟩
  · rw [htake]
    exact (inside_of_inert hq hfirst).append (.escaped (inside_of_inert hq hsecond))
  · rw [htake, List.mem_append, not_or]
    refine ⟨fun hm => (hfirst _ hm).point rfl, fun hm => ?_⟩
    have hm : '.' ∈ s.take 4 := by simpa using hm
    exact (hsecond _ hm).point rfl

theorem taken_unicodeEscape? {q : Char} (hq : IsQuote q) {s : List Char} {p : Char × Nat}
    (h : unicodeEscape? s = some p) : Taken q s p.2 := by
  unfold unicodeEscape? at h
  split at h
  · rename_i t
    simp only at h
    obtain ⟨c, hc, rfl⟩ := Option.map_eq_some_iff.mp h
    obtain ⟨n, hn, _⟩ := Option.bind_eq_some_iff.mp hc
    exact taken_braced hq rfl (inert_of_unsigned? hn)
  · rename_i a b c d t _
    split at h
    · simp at h
    rename_i high hhigh
    have hfirst := inert_of_unsigned? hhigh
    have htaken : Taken q ([a, b, c, d] ++ t) 4 := Taken.of_inert hq hfirst
    split at h
    · split at h
      · split at h
        · simp at h
        rename_i low hlow
        split at h
        · simp at h
        rename_i hlen
        split at h
        · obtain rfl := Option.some.inj h
          exact taken_pair hq hfirst (inert_of_unsigned? hlow) (by omega)
        · obtain rfl := Option.some.inj h
          exact htaken
      · obtain rfl := Option.some.inj h
        exact htaken
    · obtain rfl := Option.some.inj h
      exact htaken
  · simp at h

/-- `Decodes q raw v` : the inside `raw` of a text between quotes can stand for `v`. -/
structure Decodes (q : Char) (raw v : List Char) : Prop where
  inside : Inside q raw
  length_le : v.length ≤ raw.length
  points : raw.count '.' ≤ v.count '.'

namespace Decodes

variable {q : Char} {raw rest v w : List Char}

theorem nil : Decodes q [] [] := ⟨.nil, Nat.le_refl _, Nat.le_refl _⟩

theorem append (hv : Decodes q raw v) (hw : Decodes q rest w) :
    Decodes q (raw ++ rest) (v ++ w) where
  inside := hv.inside.append hw.inside
  length_le := by
    rw [List.length_append, List.length_append]
    exact Nat.add_le_add hv.length_le hw.length_le
  points := by
    rw [List.count_append, List.count_append]
    exact Nat.add_le_add hv.points hw.points

theorem plain {c : Char} (hq : c ≠ q) (hb : c ≠ '\\') : Decodes q [c] [c] :=
  ⟨.plain hq hb .nil, Nat.le_refl _, Nat.le_refl _⟩

/-- An escape of one character stands for at most one, and for a point only as a point. -/
theorem escaped {e : Char} (hl : v.length ≤ 1) (he : e = '.' → v = ['.']) :
    Decodes q ['\\', e] v where
  inside := .escaped .nil
  length_le := Nat.le_succ_of_le hl
  points := by
    by_cases h : e = '.'
    · rw [he h, h]
      decide
    · have hcount : ['\\', e].count '.' = 0 := by simp [h]
      rw [hcount]
      exact Nat.zero_le _

theorem of_taken {e c : Char} {s : List Char} {n : Nat} (he : e ≠ '.') (h : Taken q s n) :
    Decodes q ('\\' :: (e :: s).take (n + 1)) [c] where
  inside := .escaped h.inside
  length_le := by simp
  points := by
    have hcount : ('\\' :: (e :: s).take (n + 1)).count '.' = 0 := by
      refine List.count_eq_zero.mpr ?_
      simpa [Ne.symm he] using h.point
    rw [hcount]
    exact Nat.zero_le _

end Decodes

theorem decodes_escape? {q : Char} (hq : IsQuote q) {s cs : List Char} {n : Nat}
    (h : escape? s = some (cs, n)) : n ≤ s.length ∧ Decodes q ('\\' :: s.take n) cs := by
  unfold escape? at h
  split at h
  · simp at h
  rename_i e s
  have hone : ∀ v : List Char, some (v, 1) = some (cs, n) → v.length ≤ 1 →
      (e = '.' → v = ['.']) → n ≤ (e :: s).length ∧ Decodes q ('\\' :: (e :: s).take n) cs := by
    intro v hv hl he
    obtain ⟨rfl, rfl⟩ := Prod.mk.inj (Option.some.inj hv)
    exact ⟨by simp, .escaped hl he⟩
  split at h
  iterate 7 exact hone _ h (by simp) (by simp)
  · obtain ⟨p, hp, heq⟩ := Option.map_eq_some_iff.mp h
    obtain ⟨rfl, rfl⟩ := Prod.mk.inj heq
    have htaken := taken_hexEscape? hq hp
    exact ⟨Nat.succ_le_succ htaken.le_length, .of_taken (by simp) htaken⟩
  · obtain ⟨p, hp, heq⟩ := Option.map_eq_some_iff.mp h
    obtain ⟨rfl, rfl⟩ := Prod.mk.inj heq
    have htaken := taken_unicodeEscape? hq hp
    exact ⟨Nat.succ_le_succ htaken.le_length, .of_taken (by simp) htaken⟩
  · exact hone _ h (by simp) (by simp)
  · exact hone _ h (by simp) (fun he => by rw [he])

/-- A string literal is cut behind its inside, and is read as a text that the inside can stand
for. -/
theorem inside_of_stringBody {q : Char} (hq : IsQuote q) {s v : List Char} {n : Nat}
    (h : stringBody q s = .ok (v, n)) :
    ∃ raw post, s = raw ++ q :: post ∧ n = raw.length + 1 ∧ Decodes q raw v := by
  fun_induction stringBody q s generalizing v n with
  | case1 => simp at h
  | case2 r =>
    obtain ⟨rfl, rfl⟩ := Prod.mk.inj (Except.ok.inj h)
    exact ⟨[], r, rfl, rfl, .nil⟩
  | case3 => simp at h
  | case4 => simp at h
  | case5 => simp at h
  | case6 => simp at h
  | case7 =>
    rename_i r _ cs k hescape t m hbody _ _ ih
    obtain ⟨rfl, rfl⟩ := Prod.mk.inj (Except.ok.inj h)
    obtain ⟨hle, hcs⟩ := decodes_escape? hq hescape
    obtain ⟨raw, post, hdrop, rfl, hraw⟩ := ih hbody
    refine ⟨'\\' :: r.take k ++ raw, post, ?_, ?_, hcs.append hraw⟩
    · rw [List.append_assoc, ← hdrop, List.cons_append, List.take_append_drop]
    · rw [List.length_append, List.length_cons, List.length_take_of_le hle]
      omega
  | case8 => simp at h
  | case9 =>
    rename_i c r hne _ hb t m hbody ih
    obtain ⟨rfl, rfl⟩ := Prod.mk.inj (Except.ok.inj h)
    obtain ⟨raw, post, rfl, rfl, hraw⟩ := ih hbody
    exact ⟨c :: raw, post, rfl, rfl, (Decodes.plain hne hb).append hraw⟩

end Source

/-! ## Strings of JSON text -/

namespace Json

theorem inert_of_hexUnit? {a b c d : Char} {n : Nat} (h : hexUnit? a b c d = some n) :
    ∀ x ∈ [a, b, c, d], Inert x :=
  fun x hx => inert_of_isAlphanum (Text.isAlphanum_of_natural? h x hx)

/-- A string of JSON text is cut behind its inside. -/
theorem inside_of_scanQuoted {s : List Char} {p : List Char × List Char}
    (h : scanQuoted s = some p) : s = p.1 ++ '"' :: p.2 ∧ Inside '"' p.1 := by
  fun_induction scanQuoted s generalizing p with
  | case1 => simp at h
  | case2 s =>
    obtain rfl := Option.some.inj h
    exact ⟨rfl, .nil⟩
  | case3 => simp at h
  | case4 a b c d s n hunit ih =>
    obtain ⟨r, hr, rfl⟩ := Option.map_eq_some_iff.mp h
    obtain ⟨rfl, hinside⟩ := ih hr
    have hfour := inside_of_inert (q := '"') (Or.inl rfl) (inert_of_hexUnit? hunit)
    exact ⟨rfl, .escaped (hfour.append hinside)⟩
  | case5 => simp at h
  | case6 e s _ _ _ ih =>
    obtain ⟨r, hr, rfl⟩ := Option.map_eq_some_iff.mp h
    obtain ⟨rfl, hinside⟩ := ih hr
    exact ⟨rfl, .escaped hinside⟩
  | case7 => simp at h
  | case8 c s hne _ _ hc ih =>
    obtain ⟨r, hr, rfl⟩ := Option.map_eq_some_iff.mp h
    obtain ⟨rfl, hinside⟩ := ih hr
    exact ⟨rfl, .plain hne (fun hb => hc (Or.inl hb)) hinside⟩

theorem point_of_hexUnit? {a b c d : Char} {n : Nat} {s : List Char}
    (h : hexUnit? a b c d = some n) (hs : '.' ∈ '\\' :: 'u' :: a :: b :: c :: d :: s) :
    '.' ∈ s := by
  have hfour : '.' ∉ [a, b, c, d] := fun hm => (inert_of_hexUnit? h _ hm).point rfl
  have hall : '.' ∈ ['\\', 'u'] ++ ([a, b, c, d] ++ s) := hs
  rcases List.mem_append.mp hall with hm | hm
  · exact absurd hm (by simp)
  · exact (List.mem_append.mp hm).resolve_left hfour

/-- A point in a spelling is a point of the text. -/
theorem point_of_unescape? {s t : List Char} (h : unescape? s = some t) (hs : '.' ∈ s) :
    '.' ∈ t := by
  fun_induction unescape? s generalizing t with
  | case1 => simp at hs
  | case4 _ _ _ _ _ hhigh _ _ _ _ _ _ _ hlow _ ih =>
    obtain ⟨u, hu, rfl⟩ := Option.map_eq_some_iff.mp h
    have hrest := point_of_hexUnit? hlow (point_of_hexUnit? hhigh hs)
    exact List.mem_cons_of_mem _ (ih hu hrest)
  | case8 _ _ _ _ _ _ hunit _ _ ih =>
    obtain ⟨u, hu, rfl⟩ := Option.map_eq_some_iff.mp h
    exact List.mem_cons_of_mem _ (ih hu (point_of_hexUnit? hunit hs))
  | case10 e s _ c hc ih =>
    obtain ⟨u, hu, rfl⟩ := Option.map_eq_some_iff.mp h
    rcases List.mem_cons.mp hs with hs | hs
    · exact absurd hs (by simp)
    rcases List.mem_cons.mp hs with rfl | hs
    · cases hc
    · exact List.mem_cons_of_mem _ (ih hu hs)
  | case12 c s _ _ _ ih =>
    obtain ⟨u, hu, rfl⟩ := Option.map_eq_some_iff.mp h
    rcases List.mem_cons.mp hs with rfl | hs
    · exact List.mem_cons_self
    · exact List.mem_cons_of_mem _ (ih hu hs)
  | _ => simp at h

end Json

end CallContract
