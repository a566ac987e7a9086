import CallContract.Proofs.Source.Literal.Number
import CallContract.Proofs.Source.Printing.Parameters
import CallContract.Proofs.Text.Trim

/-!
# Literals as JSON text

The text of a literal may be JSON text too. If it is, the two languages agree on every text that is
no number : the escapes of JSON are escapes of the source language and stand for the same
characters, the halves of a surrogate pair included (`Source.stringBody_of_unescape?`), and true,
false and null are spelled alike (`Source.literal_eq_of_read?`). On numbers they agree up to
the rounding of each (`Source.literal_eq_narrowed`). If the text is no JSON text, the literal is at
any rate not the text itself, which has quotes around it (`Source.not_same_spelling`).
-/

namespace CallContract

-- Powers of numbers are the built-in ones, whatever else is imported.
attribute [local instance (high)] instPowNat

/-! ## Hexadecimal digits -/

namespace Text

theorem naturalFrom?_lt {radix : Nat} : ∀ {s : List Char} {n m : Nat},
    naturalFrom? radix n s = some m → m < (n + 1) * radix ^ s.length
  | [], n, m, h => by
    obtain rfl := Option.some.inj h
    simp
  | c :: s, n, m, h => by
    obtain ⟨d, hd, h⟩ := Option.bind_eq_some_iff.mp h
    have hlt : d < radix := by
      obtain ⟨hlt, hd⟩ := Option.ite_none_right_eq_some.mp hd
      exact Option.some.inj hd ▸ hlt
    have hrest := naturalFrom?_lt h
    have hle : n * radix + d + 1 ≤ (n + 1) * radix := by
      rw [Nat.add_mul]
      omega
    calc m < (n * radix + d + 1) * radix ^ s.length := hrest
      _ ≤ (n + 1) * radix * radix ^ s.length := Nat.mul_le_mul_right _ hle
      _ = (n + 1) * radix ^ (s.length + 1) := by
        rw [Nat.pow_succ, Nat.mul_assoc, Nat.mul_comm radix]

end Text

namespace Source

open Json (hexUnit? shortEscape? isHighHalf isLowHalf joinHalves unescape? Value)

variable {a b c d : Char} {u : Nat} {s t q : List Char}

/-- Four hexadecimal digits are a number below 2^16 to both languages. -/
theorem hexValue?_of_hexUnit? (h : hexUnit? a b c d = some u) :
    hexValue? [a, b, c, d] = some u ∧ u < 0x10000 ∧ a ≠ '\x7b' := by
  have hchars := Text.isAlphanum_of_natural? h
  have ha := hchars a List.mem_cons_self
  have hlt : u < 0x10000 := by
    rw [hexUnit?, Text.natural?, if_neg (by simp)] at h
    simpa using Text.naturalFrom?_lt h
  refine ⟨?_, hlt, by rintro rfl; cases ha⟩
  unfold hexValue? Text.unsigned?
  split
  · rename_i heq
    obtain ⟨rfl, -⟩ := List.cons.inj heq
    cases ha
  · have h : Text.natural? 16 [a, b, c, d] = some u := h
    simp only [h]
    exact Option.filter_some_pos (by simp; omega)

/-! ## Escapes -/

theorem escape?_of_shortEscape? {e : Char} (h : shortEscape? e = some c) :
    escape? (e :: s) = some ([c], 1) := by
  unfold shortEscape? at h
  split at h <;> first | (obtain rfl := Option.some.inj h; rfl) | cases h

theorem escape?_unicode (s : List Char) :
    escape? ('u' :: s) = (unicodeEscape? s).map fun p => ([p.1], p.2 + 1) := rfl

/-- An escape of four digits stands for their character. -/
theorem escape?_of_hexUnit? (h : hexUnit? a b c d = some u) (hhigh : isHighHalf u = false)
    (hlow : isLowHalf u = false) :
    escape? ('u' :: a :: b :: c :: d :: s) = some ([Char.ofNat u], 5) := by
  obtain ⟨hvalue, hlt, hbrace⟩ := hexValue?_of_hexUnit? h
  have hvalid : u.isValidChar := by
    simp only [isHighHalf, isLowHalf, Bool.and_eq_false_iff, decide_eq_false_iff_not] at hhigh hlow
    simp only [Nat.isValidChar]
    omega
  have hunicode : unicodeEscape? (a :: b :: c :: d :: s) = some (Char.ofNat u, 4) := by
    rw [unicodeEscape?, hvalue]
    · simp only [hhigh, charOf?, if_pos hvalid]
      rfl
    · exact hbrace
  rw [escape?_unicode, hunicode, Option.map_some]

/-- The escapes of the halves of a surrogate pair stand for the character of the pair. -/
theorem escape?_of_halves {a' b' c' d' : Char} {v : Nat} (h : hexUnit? a b c d = some u)
    (h' : hexUnit? a' b' c' d' = some v) (hhigh : isHighHalf u = true)
    (hlow : isLowHalf v = true) :
    escape? ('u' :: a :: b :: c :: d :: '\\' :: 'u' :: a' :: b' :: c' :: d' :: s) =
      some ([joinHalves u v], 11) := by
  obtain ⟨hvalue, -, hbrace⟩ := hexValue?_of_hexUnit? h
  obtain ⟨hvalue', -, -⟩ := hexValue?_of_hexUnit? h'
  have hunicode : unicodeEscape? (a :: b :: c :: d :: '\\' :: 'u' :: a' :: b' :: c' :: d' :: s) =
      some (joinHalves u v, 10) := by
    rw [unicodeEscape?, hvalue]
    · have htake : (a' :: b' :: c' :: d' :: s).take 4 = [a', b', c', d'] := rfl
      have hlength : ¬(a' :: b' :: c' :: d' :: s).length < 4 := by simp
      simp only [hhigh, htake, hvalue', hlow, if_true, if_neg hlength]
    · exact hbrace
  rw [escape?_unicode, hunicode, Option.map_some]

/-! ## Strings -/

theorem ne_back_of_hexUnit? (h : hexUnit? a b c d = some u) :
    ∀ x ∈ [a, b, c, d], x ≠ '\\' :=
  fun x hx => (Json.inert_of_hexUnit? h x hx).back

/-- What JSON reads between double quotes, the source language reads too. -/
theorem stringBody_of_unescape? (hq : Inside '"' q) (h : unescape? q = some t) (rest : List Char) :
    stringBody '"' (q ++ '"' :: rest) = .ok (t, q.length + 1) := by
  fun_induction unescape? q generalizing t with
  | case1 =>
    obtain rfl := Option.some.inj h
    rw [List.nil_append, stringBody, if_pos rfl]
    rfl
  | case4 a b c d u hu hhigh a' b' c' d' s v hv hlow ih =>
    obtain ⟨w, hw, rfl⟩ := Option.map_eq_some_iff.mp h
    have hs : Inside '"' s := by
      have hfirst : Inside '"' ('\\' :: 'u' :: a' :: b' :: c' :: d' :: s) :=
        .of_append (ne_back_of_hexUnit? hu) hq.behind_escape
      exact .of_append (ne_back_of_hexUnit? hv) hfirst.behind_escape
    exact stringBody_escaped (w := [a, b, c, d, '\\', 'u', a', b', c', d']) (Or.inl rfl)
      (escape?_of_halves hu hv hhigh hlow) (ih hs hw)
  | case8 a b c d s u hu hhigh hlow ih =>
    obtain ⟨w, hw, rfl⟩ := Option.map_eq_some_iff.mp h
    have hs : Inside '"' s := .of_append (ne_back_of_hexUnit? hu) hq.behind_escape
    exact stringBody_escaped (w := [a, b, c, d]) (Or.inl rfl)
      (escape?_of_hexUnit? hu (by simpa using hhigh) (by simpa using hlow)) (ih hs hw)
  | case10 e s _ c hc ih =>
    obtain ⟨w, hw, rfl⟩ := Option.map_eq_some_iff.mp h
    exact stringBody_escaped (w := []) (Or.inl rfl) (escape?_of_shortEscape? hc)
      (ih hq.behind_escape hw)
  | case12 c s _ _ hc ih =>
    obtain ⟨w, hw, rfl⟩ := Option.map_eq_some_iff.mp h
    rw [not_or] at hc
    have hquote : c ≠ '"' := by
      cases hq with
      | plain hquote _ _ => exact hquote
      | escaped _ => exact absurd rfl hc.1
    have hbreak : c ≠ '\n' := by
      rintro rfl
      exact hc.2 (by decide)
    exact stringBody_plain hquote hbreak hc.1 (ih (hq.of_cons hc.1) hw)
  | _ => cases h

/-! ## The first token -/

theorem literal?_of_mark {m : Mark} (hm : m ≠ .minus) {t : Token} (ht : t.lexeme = .mark m)
    (ts : List Token) : literal? (t :: ts) = none := by
  unfold literal?
  split
  · rename_i heq
    obtain ⟨rfl, -⟩ := List.cons.inj heq
    rw [ht]
  · rename_i heq
    obtain ⟨rfl, -⟩ := List.cons.inj heq
    rw [ht]
    split
    · rename_i hlex _
      exact absurd (Lexeme.mark.inj hlex) hm
    · rfl
  · rfl

/-- A text that starts with a bracket is no literal. -/
theorem literal?_of_opens {m : Mark} {c : Char} {r : List Char} {l : Lexed}
    (hm : m.spelling.toList = [c]) (hgoes : ∀ d, m.goesOn d = false) (hminus : m ≠ .minus)
    (h : tokenize (c :: r) = .ok l) : literal? l.tokens = none := by
  have hends : ∀ d ∈ r.head?, m.goesOn d = false := fun d _ => hgoes d
  obtain ⟨c', r', hcons, hread⟩ := lexemeAt_mark hends
  rw [hm] at hcons
  obtain ⟨rfl, rfl⟩ := List.cons.inj hcons
  have hpieces := hread.piecesFrom_eq 0 false none
  rw [List.nil_append] at hpieces
  rw [tokenize, hpieces] at h
  cases hrest : piecesFrom (0 + width [c]) false (some (.mark m)) r with
  | error e =>
    rw [hrest] at h
    cases h
  | ok p =>
    rw [hrest] at h
    rw [← Except.ok.inj h]
    exact literal?_of_mark hminus rfl _

/-! ## Nodes -/

/-- `LiteralOf n v` : the text of a node can be a literal with the value `v`. -/
inductive LiteralOf : Json.Node → Value → Prop
  | null : LiteralOf .null .null
  | bool (b : Bool) : LiteralOf (.bool b) (.bool b)
  | string {spelling : List Char} {v : Value} :
    (∀ w, unescape? spelling = some w → v = .string (String.ofList w)) →
    LiteralOf (.string spelling) v
  | number {n : Numeral} {exponent : List Char} {k : Json.Number} : n.WellFormed →
    Numeral.SpellsExponent n.exponent exponent →
    numberLiteral? (n.magnitude exponent) n.negative = some k → LiteralOf (.number n) (.number k)

theorem isBlank_of_isSpace {c : Char} (h : Json.isSpace c = true) : Text.isBlank c = true := by
  simp only [Json.isSpace, Bool.or_eq_true, decide_eq_true_eq] at h
  rcases h with ((rfl | rfl) | rfl) | rfl <;> decide

theorem isBlank_of_skipSpace (h : Json.skipSpace s = []) : ∀ c ∈ s, Text.isBlank c = true :=
  fun c hc => isBlank_of_isSpace (List.dropWhile_eq_nil_iff.mp h c hc)

/-- A word that is a literal is that literal. -/
theorem literal?_of_word (name : String) (hname : name ∈ ["true", "false", "null"]) {v : Value}
    (hv : v.IsLiteral) (hlexeme : literalLexeme v = .word name) {l : Lexed}
    (h : tokenize name.toList = .ok l) : literal? l.tokens = some v := by
  obtain ⟨l', hl', htokens⟩ := isWord_literal name hname
  obtain rfl := Except.ok.inj (h.symm.trans hl')
  obtain ⟨t, heq, hlex⟩ := List.map_eq_singleton_iff.mp htokens
  rw [heq, literal?_literalLexeme hv (hlex.trans hlexeme.symm)]

/-- A text between double quotes that JSON reads is one token. -/
theorem literal?_of_unescape? {w : List Char} (hq : Inside '"' q) (hw : unescape? q = some w)
    {l : Lexed} (h : tokenize ('"' :: (q ++ ['"'])) = .ok l) :
    literal? l.tokens = some (.string (String.ofList w)) := by
  have hread := lexemeAt_quoted (Or.inl rfl) (stringBody_of_unescape? hq hw [])
  rw [hread.tokenize_eq] at h
  rw [← Except.ok.inj h]
  rfl

/-- What JSON and the source language both read, in the two languages. -/
theorem literalOf_of_read? {n : Json.Node} {l : Lexed} {v : Value} (ht : Text.Trimmed t)
    (hn : Json.Node.read? t = some n) (hl : tokenize t = .ok l) (hv : literal? l.tokens = some v) :
    LiteralOf n v := by
  obtain ⟨c, r, rfl⟩ := List.exists_cons_of_ne_nil ht.ne_nil
  have hspace : Json.isSpace c = false := Bool.eq_false_iff.mpr fun h => by
    have := ht.head c rfl
    rw [isBlank_of_isSpace h] at this
    cases this
  rw [Json.Node.read?_eq, Json.Node.cut?_eq, Json.skipSpace_cons hspace] at hn
  obtain ⟨⟨m, x⟩, hcut, hx⟩ := Option.bind_eq_some_iff.mp hn
  obtain ⟨hspaces, rfl⟩ : Json.skipSpace x = [] ∧ m = n := by
    simpa [Option.ite_none_right_eq_some] using hx
  have hblank := isBlank_of_skipSpace hspaces
  -- Nothing follows the node, since the text does not end in a blank.
  have hend : ∀ s, c :: r = s ++ x → x = [] := fun s heq =>
    (heq ▸ ht : Text.Trimmed (s ++ x)).eq_nil_of_append hblank
  split at hcut
  · rename_i heq
    obtain ⟨rfl, rfl⟩ := Prod.mk.inj (Option.some.inj hcut)
    obtain rfl := hend "null".toList heq
    have hnull := literal?_of_word "null" (by decide) .null rfl (heq ▸ hl)
    obtain rfl := Option.some.inj (hnull.symm.trans hv)
    exact .null
  · rename_i heq
    obtain ⟨rfl, rfl⟩ := Prod.mk.inj (Option.some.inj hcut)
    obtain rfl := hend "true".toList heq
    have htrue := literal?_of_word "true" (by decide) (.bool true) rfl (heq ▸ hl)
    obtain rfl := Option.some.inj (htrue.symm.trans hv)
    exact .bool true
  · rename_i heq
    obtain ⟨rfl, rfl⟩ := Prod.mk.inj (Option.some.inj hcut)
    obtain rfl := hend "false".toList heq
    have hfalse := literal?_of_word "false" (by decide) (.bool false) rfl (heq ▸ hl)
    obtain rfl := Option.some.inj (hfalse.symm.trans hv)
    exact .bool false
  · rename_i s heq
    obtain ⟨⟨q, y⟩, hscan, hp⟩ := Option.map_eq_some_iff.mp hcut
    obtain ⟨rfl, rfl⟩ := Prod.mk.inj hp
    obtain ⟨hs, hinside⟩ := Json.inside_of_scanQuoted hscan
    simp only at hs hinside
    obtain rfl := hend ('"' :: (q ++ ['"'])) (by simp [heq, hs])
    refine .string fun w hw => ?_
    have hstring := literal?_of_unescape? hinside hw (hs ▸ heq ▸ hl)
    exact Option.some.inj (hv.symm.trans hstring)
  · rename_i s heq
    have hnone := literal?_of_opens (m := .bracketOpen) rfl (fun _ => rfl) (by decide) (heq ▸ hl)
    cases hnone.symm.trans hv
  · rename_i s heq
    have hnone := literal?_of_opens (m := .braceOpen) rfl (fun _ => rfl) (by decide) (heq ▸ hl)
    cases hnone.symm.trans hv
  · obtain ⟨⟨k, y⟩, hscan, hp⟩ := Option.map_eq_some_iff.mp hcut
    obtain ⟨rfl, rfl⟩ := Prod.mk.inj hp
    obtain ⟨hk, exponent, hexponent, heq⟩ := Numeral.wellFormed_of_scan? hscan
    obtain rfl := hend (k.signText ++ k.magnitude exponent) (by rw [heq, List.append_assoc])
    obtain ⟨l', hl', hliteral⟩ := exists_tokenize_numeral hk hexponent
    rw [List.append_nil] at heq
    rw [heq, hl'] at hl
    obtain rfl := Except.ok.inj hl
    obtain ⟨w, hw, rfl⟩ := Option.map_eq_some_iff.mp (hliteral.symm.trans hv)
    exact .number hk hexponent hw

variable {n : Json.Node} {l : Lexed} {v w : Value}

/-- On a text that is no number the two languages agree. -/
theorem literal_eq_of_read? (ht : Text.Trimmed t) (hl : tokenize t = .ok l)
    (hv : literal? l.tokens = some v) (hnumber : ∀ k, v ≠ .number k)
    (hw : Value.read? t = some w) : v = w := by
  obtain ⟨n, hn, hvalue⟩ := Option.bind_eq_some_iff.mp hw
  cases literalOf_of_read? ht hn hl hv with
  | null => exact Option.some.inj hvalue
  | bool b => exact Option.some.inj hvalue
  | string hspelling =>
    obtain ⟨u, hu, rfl⟩ := Option.map_eq_some_iff.mp hvalue
    obtain ⟨x, hx, rfl⟩ := Option.map_eq_some_iff.mp hu
    exact hspelling x hx
  | number => exact absurd rfl (hnumber _)

/-- On a short number they agree but for doubles without a fraction. -/
theorem literal_eq_narrowed {n : Numeral} {k : Json.Number} (ht : Text.Trimmed t)
    (hl : tokenize t = .ok l) (hv : literal? l.tokens = some v)
    (hn : Json.Node.read? t = some (.number n)) (hshort : n.Short)
    (hk : Json.Number.read? n = some k) : v = .number (narrowed k) := by
  cases literalOf_of_read? ht hn hl hv with
  | number hwell hexponent hliteral =>
    rw [numberLiteral?_eq hwell hshort hexponent hk] at hliteral
    rw [Option.some.inj hliteral]

theorem same_self_of_literal? {ts : List Token} (hv : literal? ts = some v) :
    v.same v = true := by
  unfold literal? at hv
  split at hv
  · split at hv
    all_goals first
      | cases hv; exact beq_self_eq_true _
      | obtain ⟨n, -, rfl⟩ := Option.map_eq_some_iff.mp hv
        exact n.same_self
      | cases hv; rfl
      | cases hv
  · split at hv
    · obtain ⟨n, -, rfl⟩ := Option.map_eq_some_iff.mp hv
      exact n.same_self
    · cases hv
  · cases hv

/-! ## The text itself -/

/-- A template that stands for a text has it in front of its closing quote. -/
theorem take_of_templateBody {s body : List Char} {start pos n : Nat}
    (h : templateBody start pos s = .ok (some body, n)) : s.take n = body ++ ['\x60'] := by
  generalize hb : some body = b at h
  cases templateStep_of_templateBody h with
  | close =>
    obtain rfl := Option.some.inj hb
    rfl
  | escaped hm =>
    obtain ⟨rest, rfl, rfl⟩ := Option.map_eq_some_iff.mp hb.symm
    rw [List.take_succ_cons, List.take_succ_cons, take_of_templateBody hm]
    rfl
  | substituted => cases hb
  | plain _ _ _ hm =>
    obtain ⟨rest, rfl, rfl⟩ := Option.map_eq_some_iff.mp hb.symm
    rw [List.take_succ_cons, take_of_templateBody hm]
    rfl
termination_by s.length
decreasing_by all_goals subst_vars; simp only [List.length_cons]; omega

/-- A literal that stands for a text is that of a string, or of a template. -/
theorem lexeme_of_literal?_string {ts : List Token} {x : String}
    (h : literal? ts = some (.string x)) :
    ∃ t, ts = [t] ∧ (t.lexeme = .string x ∨ t.lexeme = .template (some x)) := by
  unfold literal? at h
  split at h
  · rename_i t
    refine ⟨t, rfl, ?_⟩
    split at h
    · rename_i hlexeme
      cases h
      exact Or.inl hlexeme
    · rename_i hlexeme
      cases h
      exact Or.inr hlexeme
    · obtain ⟨_, _, heq⟩ := Option.map_eq_some_iff.mp h
      cases heq
    all_goals cases h
  · split at h
    · obtain ⟨_, _, heq⟩ := Option.map_eq_some_iff.mp h
      cases heq
    · cases h
  · cases h

theorem templateBody_of_lexemeAt {previous : Option Lexeme} {pos n : Nat} {c : Char}
    {r : List Char} {x : String} (h : lexemeAt previous pos c r = .ok (.template (some x), n)) :
    templateBody pos (pos + 1) r = .ok (some x.toList, n) := by
  generalize hl : Lexeme.template (some x) = l at h
  cases scanned_of_lexemeAt h with
  | template _ _ hbody =>
    obtain ⟨y, rfl, rfl⟩ := Option.map_eq_some_iff.mp (Lexeme.template.inj hl).symm
    rw [hbody, String.toList_ofList]
  | operator =>
    unfold operatorLexeme at hl
    split at hl <;> cases hl
  | string | number | regex | word => cases hl

/-- A literal that stands for a text is longer than the text. -/
theorem length_lt_of_literal? {x : String} (hl : tokenize t = .ok l)
    (hv : literal? l.tokens = some (.string x)) : x.toList.length < t.length := by
  obtain ⟨u, htokens, hlexeme⟩ := lexeme_of_literal?_string hv
  obtain ⟨pre, body, post, hsource, -, -, hspells⟩ :=
    slice_of_mem_tokens hl (htokens ▸ List.mem_singleton_self u)
  cases hspells with
  | @lexeme _ _ c r n hread =>
    have hlt : x.toList.length < (c :: r.take n).length := by
      rcases hlexeme with hlexeme | hlexeme <;> rw [hlexeme] at hread
      · obtain ⟨hq, hbody⟩ := (spelling_of_lexemeAt hread).2 x rfl
        obtain ⟨raw, rest, rfl, rfl, hraw⟩ := inside_of_stringBody hq hbody
        have := hraw.length_le
        rw [List.take_length_add_append]
        simp only [List.length_cons, List.length_append]
        omega
      · have hbody := take_of_templateBody (templateBody_of_lexemeAt hread)
        rw [hbody]
        simp only [List.length_cons, List.length_append]
        omega
    rw [hsource, List.length_append, List.length_append]
    omega

/-- A literal is not its own spelling. -/
theorem not_same_spelling (hl : tokenize t = .ok l) (hv : literal? l.tokens = some v) :
    v.same (.string (String.ofList t)) = false := by
  by_contra hsame
  rw [Bool.not_eq_false] at hsame
  cases v with
  | string s =>
    obtain rfl : s = String.ofList t := eq_of_beq hsame
    have hlength := length_lt_of_literal? hl hv
    rw [String.toList_ofList] at hlength
    exact Nat.lt_irrefl _ hlength
  | _ => cases hsame

end Source

end CallContract
