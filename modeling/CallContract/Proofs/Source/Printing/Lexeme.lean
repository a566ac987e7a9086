import CallContract.Proofs.Path.Key
import CallContract.Proofs.Source.Tiling

/-!
# Lexemes are read back

Words, decimal numbers, strings and marks can be written (`Lexeme.written`), strings as JSON
writes them. What a lexeme is written with goes on for some characters behind it
(`Lexeme.goesOn`) : a word for those of a word, an equals sign for another one. In front of any
other text it is read as the lexeme and as nothing more (`Lexeme.Writable.exists_lexemeAt`).
-/

namespace CallContract.Source

/-! ## Characters -/

/-- What starts neither a blank, nor a comment, nor a literal between quotes. -/
def Graphic (c : Char) : Prop :=
  c ∉ [' ', '\t', '\n', '\x0c', '\r', '/', '"', '\x27', '\x60']

theorem Graphic.isGap {c : Char} (h : Graphic c) : isGap c = false := by
  simp only [Graphic, List.mem_cons, not_or] at h
  simp [Source.isGap, h]

theorem graphic_of {p : Char → Bool} {c : Char} (hc : p c = true)
    (hp : [' ', '\t', '\n', '\x0c', '\r', '/', '"', '\x27', '\x60'].any p = false) :
    Graphic c := fun h => List.any_eq_false.mp hp c h hc

theorem graphic_of_startsWord {c : Char} (h : startsWord c = true) : Graphic c :=
  graphic_of h rfl

theorem graphic_of_isDigit {c : Char} (h : c.isDigit = true) : Graphic c :=
  graphic_of h rfl

theorem isDigit_of_startsWord {c : Char} (h : startsWord c = true) : c.isDigit = false := by
  simp only [startsWord, Char.isAlpha, Char.isUpper, Char.isLower, Char.isDigit,
    Bool.or_eq_true, Bool.and_eq_true, decide_eq_true_eq, Bool.and_eq_false_iff,
    decide_eq_false_iff_not, Char.toNat, ge_iff_le, UInt32.le_iff_toNat_le] at h ⊢
  rcases h with ((h | rfl) | rfl) | h
  · simp at h ⊢
    omega
  · decide
  · decide
  · simp at h ⊢
    omega

/-! ## Words -/

/-- A name that the lexer reads as one word. -/
def IsWord (name : String) : Prop :=
  ∃ l, tokenize name.toList = .ok l ∧ l.tokens.map Token.lexeme = [.word name]

theorem startsWord_of_lexemeAt {previous : Option Lexeme} {pos n : Nat} {c : Char} {r : List Char}
    {name : String} (h : lexemeAt previous pos c r = .ok (.word name, n)) :
    startsWord c = true ∧ n = (r.takeWhile continuesWord).length := by
  generalize hl : Lexeme.word name = l at h
  cases scanned_of_lexemeAt h with
  | word _ _ _ _ hc hn => exact ⟨hc, hn⟩
  | @operator o => exact absurd hl.symm ((ne_of_operatorLexeme o).1 name)
  | string | template | number | regex => cases hl

/-- A word starts with a character that words start with and goes on with such characters. -/
theorem IsWord.eq_cons {name : String} (h : IsWord name) : ∃ c r, name.toList = c :: r ∧
    startsWord c = true ∧ r.takeWhile continuesWord = r := by
  obtain ⟨l, hl, htokens⟩ := h
  obtain ⟨t, ts, hts, ht, -⟩ := List.map_eq_cons_iff.mp htokens
  obtain ⟨pre, body, post, hname, -, -, hspells⟩ :=
    slice_of_mem_tokens hl (hts ▸ List.mem_cons_self : t ∈ l.tokens)
  cases hspells with
  | @lexeme _ previous c r n hlex =>
    rw [ht] at hlex
    obtain ⟨hc, rfl⟩ := startsWord_of_lexemeAt hlex
    -- the token is as long as the name, so the name is nothing but the token
    have hword := toList_of_lexemeAt hlex rfl
    have hlen := congrArg List.length (hname.symm.trans hword)
    simp only [List.length_append, List.length_cons, List.length_drop] at hlen
    have hle := (List.takeWhile_prefix continuesWord (l := r)).length_le
    have hall : r.takeWhile continuesWord = r :=
      (List.takeWhile_prefix continuesWord).eq_of_length (by omega)
    exact ⟨c, r, by rw [hword, hall, List.take_length], hc, hall⟩

/-! ## Numbers -/

/-- Digits, and underscores behind the first of them. -/
structure IsDigitRun (ds : List Char) : Prop where
  head : ∃ c ∈ ds.head?, c.isDigit = true
  all : ∀ c ∈ ds, c.isDigit = true ∨ c = '_'

/-- An exponent, or none. -/
inductive IsExponent : List Char → Prop
  | none : IsExponent []
  | some {e : Char} {sign : Option Char} {ds : List Char} : e = 'e' ∨ e = 'E' →
      (∀ c ∈ sign, c = '+' ∨ c = '-') → IsDigitRun ds → IsExponent (e :: (sign.toList ++ ds))

/-- An unsigned decimal number: digits with at most one point, and an exponent or none. -/
inductive IsDecimal : List Char → Prop
  | whole {ds e : List Char} : IsDigitRun ds → IsExponent e → IsDecimal (ds ++ e)
  | point {ds fs e : List Char} : IsDigitRun ds → fs = [] ∨ IsDigitRun fs → IsExponent e →
      IsDecimal (ds ++ '.' :: (fs ++ e))
  | fraction {fs e : List Char} : IsDigitRun fs → IsExponent e → IsDecimal ('.' :: (fs ++ e))

/-- A text with which no number goes on. -/
def EndsNumber (s : List Char) : Prop :=
  ∀ c ∈ s.head?, isNumberPart c = false ∧ c ≠ '.' ∧ c ≠ '+' ∧ c ≠ '-'

theorem numberLength_of_ends {s : List Char} (h : EndsNumber s) (run : List Char) :
    numberLength run s = 0 := by
  cases s with
  | nil => rfl
  | cons c s =>
    obtain ⟨hpart, hpoint, hplus, hminus⟩ := h c rfl
    rw [numberLength, if_neg (by simp [hpart]), if_neg hpoint, if_neg (by simp [hplus, hminus])]

theorem IsDigitRun.isNumberPart {ds : List Char} (h : IsDigitRun ds) :
    ∀ c ∈ ds, isNumberPart c = true := by
  intro c hc
  rcases h.all c hc with hdigit | rfl
  · rw [Source.isNumberPart, Char.isAlphanum, hdigit, Bool.or_true, Bool.true_or]
  · rfl

theorem numberLength_append_parts : ∀ {ds : List Char} (run s : List Char),
    (∀ c ∈ ds, isNumberPart c = true) →
      numberLength run (ds ++ s) = ds.length + numberLength (run ++ ds) s
  | [], run, s, _ => by simp
  | c :: ds, run, s, h => by
    obtain ⟨hc, hds⟩ := List.forall_mem_cons.mp h
    rw [List.cons_append, numberLength, if_pos hc, numberLength_append_parts _ _ hds,
      List.length_cons, List.append_assoc, List.singleton_append]
    omega

theorem mem_of_isHexRun {run : List Char} (h : isHexRun run = true) : 'x' ∈ run ∨ 'X' ∈ run := by
  unfold isHexRun at h
  split at h
  · simp
  · simp
  · cases h

/-- An exponent goes on with the number whose last digits are `run`. -/
theorem numberLength_exponent {run e s : List Char} (hrun : ∀ c ∈ run, c.isDigit = true ∨ c = '_')
    (he : IsExponent e) (hs : EndsNumber s) : numberLength run (e ++ s) = e.length := by
  cases he with
  | none => exact numberLength_of_ends hs run
  | @some e sign ds he hsign hds =>
    have hpart : isNumberPart e = true := by rcases he with rfl | rfl <;> rfl
    have hdigits : ∀ run, numberLength run (ds ++ s) = ds.length := fun run => by
      rw [numberLength_append_parts _ _ hds.isNumberPart, numberLength_of_ends hs, Nat.add_zero]
    rw [List.cons_append, numberLength, if_pos hpart, List.append_assoc]
    cases sign with
    | none =>
      rw [Option.toList_none, List.nil_append, List.nil_append, hdigits, List.length_cons]
    | some c =>
      have hhex : isHexRun (run ++ [e]) = false := by
        have hother : ∀ d ∈ run ++ [e], d ≠ 'x' ∧ d ≠ 'X' := by
          intro d hd
          rcases List.mem_append.mp hd with hd | hd
          · rcases hrun d hd with h | rfl
            · constructor <;> (rintro rfl; revert h; decide)
            · decide
          · rw [List.mem_singleton.mp hd]
            rcases he with rfl | rfl <;> decide
        rw [Bool.eq_false_iff]
        exact fun h => (mem_of_isHexRun h).elim (fun hx => (hother _ hx).1 rfl)
          (fun hx => (hother _ hx).2 rfl)
      have hsignMay : signMayFollow (run ++ [e]) = true := by
        rcases he with rfl | rfl <;> simp [signMayFollow, hhex]
      have hc := hsign c rfl
      have hnotpart : isNumberPart c = false := by rcases hc with rfl | rfl <;> rfl
      have hnotpoint : c ≠ '.' := by rcases hc with rfl | rfl <;> decide
      rw [Option.toList_some, List.singleton_append, List.cons_append, numberLength,
        if_neg (by simp [hnotpart]), if_neg hnotpoint, if_pos ⟨hc, hsignMay⟩, hdigits]
      simp

theorem IsDigitRun.eq_cons {ds : List Char} (h : IsDigitRun ds) :
    ∃ c r, ds = c :: r ∧ c.isDigit = true ∧ ∀ run s, numberLength run (r ++ s) =
      r.length + numberLength (run ++ r) s := by
  obtain ⟨c, hc, hdigit⟩ := h.head
  obtain ⟨r, rfl⟩ := List.head?_eq_some_iff.mp hc
  have hr := (List.forall_mem_cons.mp h.isNumberPart).2
  exact ⟨c, r, rfl, hdigit, fun run s => numberLength_append_parts run s hr⟩

/-- How a text that is read as a number starts, and that nothing of the number is left. -/
structure NumberAt (c : Char) (r rest : List Char) : Prop where
  starts : c.isDigit = true ∨ c = '.' ∧ (r ++ rest).head?.any Char.isDigit = true
  graphic : Graphic c
  length : numberLength (if c = '.' then [] else [c]) (r ++ rest) = r.length

theorem NumberAt.of_isDigit {c : Char} {r rest : List Char} (hc : c.isDigit = true)
    (h : numberLength [c] (r ++ rest) = r.length) : NumberAt c r rest where
  starts := Or.inl hc
  graphic := graphic_of_isDigit hc
  length := by rwa [if_neg (by rintro rfl; revert hc; decide)]

/-- A decimal number is read to its end. -/
theorem IsDecimal.exists_numberAt {s rest : List Char} (h : IsDecimal s) (hrest : EndsNumber rest) :
    ∃ c r, s = c :: r ∧ NumberAt c r rest := by
  cases h with
  | @whole ds e hds he =>
    have hall := hds.all
    obtain ⟨c, r, rfl, hc, hlength⟩ := hds.eq_cons
    refine ⟨c, r ++ e, rfl, .of_isDigit hc ?_⟩
    rw [List.append_assoc, hlength, List.singleton_append, numberLength_exponent hall he hrest,
      List.length_append]
  | @point ds fs e hds hfs he =>
    obtain ⟨c, r, rfl, hc, hlength⟩ := hds.eq_cons
    refine ⟨c, r ++ '.' :: (fs ++ e), rfl, .of_isDigit hc ?_⟩
    have hpart : ∀ d ∈ fs, isNumberPart d = true := by
      rcases hfs with rfl | hfs
      · simp
      · exact hfs.isNumberPart
    have hall : ∀ d ∈ fs, d.isDigit = true ∨ d = '_' := by
      rcases hfs with rfl | hfs
      · simp
      · exact hfs.all
    rw [List.append_assoc, hlength, List.singleton_append, List.cons_append, numberLength,
      if_neg (by decide),
      if_pos rfl, List.append_assoc, numberLength_append_parts _ _ hpart, List.nil_append,
      numberLength_exponent hall he hrest]
    simp
  | @fraction fs e hfs he =>
    have hall := hfs.all
    refine ⟨'.', fs ++ e, rfl, ?_, by simp [Graphic], ?_⟩
    · obtain ⟨d, r, rfl, hd, -⟩ := hfs.eq_cons
      exact Or.inr ⟨rfl, by simpa using hd⟩
    · rw [if_pos rfl, List.append_assoc, numberLength_append_parts _ _ hfs.isNumberPart,
        List.nil_append, numberLength_exponent hall he hrest, List.length_append]

/-! ## Strings -/

theorem hexValue?_control (n : Fin 32) :
    hexValue? ['0', '0', Json.hexDigit (n.val / 16), Json.hexDigit (n.val % 16)] = some n.val := by
  revert n
  decide

/-- An escape stands in front of what is left of a literal. -/
theorem stringBody_escaped {q c e : Char} {w s t : List Char} {n : Nat} (hq : IsQuote q)
    (he : escape? (e :: (w ++ s)) = some ([c], w.length + 1)) (h : stringBody q s = .ok (t, n)) :
    stringBody q ('\\' :: e :: (w ++ s)) = .ok (c :: t, n + (w.length + 2)) := by
  have hback : '\\' ≠ q := by rcases hq with rfl | rfl <;> decide
  rw [stringBody, if_neg hback, if_neg (by decide), if_pos rfl, if_neg (by simp), he]
  simp only [List.drop_succ_cons, List.drop_left, h]
  rfl

/-- A plain character stands in front of what is left of a literal. -/
theorem stringBody_plain {q c : Char} {s t : List Char} {n : Nat} (hquote : c ≠ q)
    (hbreak : c ≠ '\n') (hback : c ≠ '\\') (h : stringBody q s = .ok (t, n)) :
    stringBody q (c :: s) = .ok (c :: t, n + 1) := by
  rw [stringBody, if_neg hquote, if_neg hbreak, if_neg hback, h]

/-- A character as JSON writes it is read back in front of what is left of a literal. -/
theorem stringBody_escapeChar (c : Char) {s t : List Char} {n : Nat}
    (h : stringBody '"' s = .ok (t, n)) :
    stringBody '"' (Json.escapeChar c ++ s) = .ok (c :: t, n + (Json.escapeChar c).length) := by
  unfold Json.escapeChar
  -- the characters with a short escape
  iterate 7
    split
    · rename_i hc
      subst hc
      exact stringBody_escaped (w := []) (Or.inl rfl) rfl h
  split
  · rename_i hc
    have hvalue := hexValue?_control ⟨c.toNat, hc⟩
    refine stringBody_escaped (w := ['0', '0', _, _]) (Or.inl rfl) ?_ h
    have hhigh : Json.isHighHalf c.toNat = false := by simp [Json.isHighHalf]; omega
    have hchar : charOf? c.toNat = some c := by
      have hvalid : c.toNat.isValidChar := c.valid
      rw [charOf?, if_pos hvalid, Char.ofNat_toNat]
    simp only [List.cons_append, List.nil_append, escape?]
    rw [unicodeEscape?, hvalue]
    · simp only [hhigh, hchar]
      rfl
    · simp
  · rename_i hquote hback _ _ hbreak _ _ _
    exact stringBody_plain hquote hbreak hback h

/-- The text of a string as JSON writes it is read back up to its quote. -/
theorem stringBody_escape (v rest : List Char) :
    stringBody '"' (Json.escape v ++ '"' :: rest) = .ok (v, (Json.escape v).length + 1) := by
  induction v with
  | nil =>
    rw [Json.escape, List.flatMap_nil, List.nil_append, stringBody, if_pos rfl]
    rfl
  | cons c v ih =>
    rw [Json.escape, List.flatMap_cons, List.append_assoc, List.length_append]
    rw [Json.escape] at ih
    rw [stringBody_escapeChar c ih]
    congr 2
    omega

/-! ## Marks -/

/-- Whether another token starts where a character follows a mark: a point with a digit is a
number, and operators go on with operators. -/
def Mark.goesOn (m : Mark) (c : Char) : Bool :=
  (m == .dot && c.isDigit) ||
    operators.any fun o => Text.startsWith (m.spelling.toList ++ [c]) o.toList

theorem startsWith_append_of_head : ∀ {o p rest : List Char},
    (∀ c ∈ rest.head?, Text.startsWith (p ++ [c]) o = false) →
      Text.startsWith o (p ++ rest) = Text.startsWith o p
  | [], _, _, _ => rfl
  | d :: o, [], rest, h => by
    rcases rest with _ | ⟨c, rest⟩
    · rfl
    · have hne : ¬c = d := by
        rintro rfl
        simpa [Text.startsWith, Text.afterStart?] using h c rfl
      rw [List.nil_append, Text.startsWith, Text.afterStart?, if_neg (Ne.symm hne)]
      rfl
  | d :: o, b :: p, rest, h => by
    rw [List.cons_append, Text.startsWith, Text.startsWith, Text.afterStart?, Text.afterStart?]
    split
    · rename_i hd
      refine startsWith_append_of_head fun c hc => ?_
      have htail := h c hc
      rwa [List.cons_append, Text.startsWith, Text.afterStart?, if_pos hd.symm] at htail
    · rfl

theorem operator?_spelling {m : Mark} {rest : List Char}
    (h : ∀ c ∈ rest.head?, m.goesOn c = false) :
    operator? (m.spelling.toList ++ rest) = some m.spelling := by
  have halone : operator? m.spelling.toList = some m.spelling := by cases m <;> rfl
  rw [← halone, operator?, operator?]
  refine List.find?_congr fun o ho => startsWith_append_of_head fun c hc => ?_
  have hgoes := (Bool.or_eq_false_iff.mp (h c hc)).2
  exact Bool.eq_false_iff.mpr (List.any_eq_false.mp hgoes o ho)

/-- The characters that marks start with. -/
def markStarts : List Char :=
  ['(', ')', '\x7b', '\x7d', '[', ']', ',', ';', ':', '.', '=', '?', '*', '-', '+']

theorem Mark.spelling_eq_cons (m : Mark) :
    ∃ c r, m.spelling.toList = c :: r ∧ markStarts.contains c = true := by
  cases m <;> exact ⟨_, _, rfl, rfl⟩

theorem classes_of_markStarts {c : Char} (h : markStarts.contains c = true) :
    c.isDigit = false ∧ startsWord c = false := by
  have hall : markStarts.all (fun d => !d.isDigit && !startsWord d) = true := rfl
  simpa using List.all_eq_true.mp hall c (List.contains_iff_mem.mp h)

/-- Two marks start with a point. -/
theorem Mark.eq_of_spelling {m : Mark} {r : List Char} (h : m.spelling.toList = '.' :: r) :
    m = .dot ∧ r = [] ∨ m = .ellipsis ∧ r = ['.', '.'] := by
  have hhead : m.spelling.toList.head? = some '.' := by rw [h, List.head?_cons]
  cases m
  case dot => exact Or.inl ⟨rfl, (List.cons.inj h).2.symm⟩
  case ellipsis => exact Or.inr ⟨rfl, (List.cons.inj h).2.symm⟩
  all_goals exact absurd hhead (by decide)

theorem operatorLexeme_spelling (m : Mark) : operatorLexeme m.spelling = .mark m := by
  cases m <;> rfl

/-! ## Lexemes -/

namespace Lexeme

/-- The text of a lexeme: that of a string is JSON text, all others are spelled as they are. -/
def written : Lexeme → List Char
  | string value => (Json.Value.string value).compact.toList
  | l => (l.spelling?.getD "").toList

/-- Whether the text of a lexeme is read differently when a character follows it. -/
def goesOn : Lexeme → Char → Bool
  | word _, c => continuesWord c
  | number _, c => isNumberPart c || c = '.' || c = '+' || c = '-'
  | mark m, c => m.goesOn c
  | _, _ => false

/-- A lexeme whose text is read as the lexeme. -/
inductive Writable : Lexeme → Prop
  | word {name : String} : IsWord name → Writable (word name)
  | number {spelling : String} : IsDecimal spelling.toList → Writable (number spelling)
  | string (value : String) : Writable (string value)
  | mark (m : Mark) : Writable (mark m)

theorem written_string (value : String) :
    (string value).written = '"' :: (Json.escape value.toList ++ ['"']) := String.toList_ofList

end Lexeme

/-- How the text of a lexeme is read in front of another text. -/
structure LexemeAt (l : Lexeme) (c : Char) (r rest : List Char) : Prop where
  gap : isGap c = false
  slash : c ≠ '/'
  read : ∀ previous pos, lexemeAt previous pos c (r ++ rest) = .ok (l, r.length)

theorem Graphic.not_quote {c : Char} (h : Graphic c) : ¬(c = '"' ∨ c = '\x27') ∧ c ≠ '\x60' := by
  simp only [Graphic, List.mem_cons, not_or] at h
  simp [h]

theorem Graphic.ne_slash {c : Char} (h : Graphic c) : c ≠ '/' := by
  simp only [Graphic, List.mem_cons, not_or] at h
  simp [h]

theorem lexemeAt_word {name : String} {c : Char} {r rest : List Char} (hcons : name.toList = c :: r)
    (hc : startsWord c = true) (hr : r.takeWhile continuesWord = r)
    (hrest : ∀ c ∈ rest.head?, continuesWord c = false) : LexemeAt (.word name) c r rest := by
  have hgraphic := graphic_of_startsWord hc
  have hpoint : c ≠ '.' := by rintro rfl; revert hc; decide
  have hwhole : (r ++ rest).takeWhile continuesWord = r := by
    rw [takeWhile_append_of_head fun d hd => by rw [hrest d hd]; decide, hr]
  refine ⟨hgraphic.isGap, hgraphic.ne_slash, fun previous pos => ?_⟩
  rw [lexemeAt, if_neg hgraphic.not_quote.1, if_neg hgraphic.not_quote.2,
    if_neg (by simp [isDigit_of_startsWord hc, hpoint]), if_neg (by simp [hgraphic.ne_slash]),
    if_pos hc, hwhole]
  simp only [List.take_left]
  rw [← hcons, String.ofList_toList]

theorem NumberAt.lexemeAt {c : Char} {r rest : List Char} (h : NumberAt c r rest) :
    LexemeAt (.number (String.ofList (c :: r))) c r rest := by
  have hgraphic := h.graphic
  refine ⟨hgraphic.isGap, hgraphic.ne_slash, fun previous pos => ?_⟩
  rw [Source.lexemeAt, if_neg hgraphic.not_quote.1, if_neg hgraphic.not_quote.2, if_pos h.starts]
  simp only [h.length]
  rw [List.take_left]

theorem lexemeAt_number {spelling : String} (h : IsDecimal spelling.toList) {rest : List Char}
    (hrest : EndsNumber rest) :
    ∃ c r, spelling.toList = c :: r ∧ LexemeAt (.number spelling) c r rest := by
  obtain ⟨c, r, hcons, hnumber⟩ := h.exists_numberAt hrest
  have hread := hnumber.lexemeAt
  rw [← hcons, String.ofList_toList] at hread
  exact ⟨c, r, hcons, hread⟩

/-- A literal between quotes. -/
theorem lexemeAt_quoted {q : Char} (hq : IsQuote q) {body rest v : List Char}
    (h : stringBody q (body ++ q :: rest) = .ok (v, body.length + 1)) :
    LexemeAt (.string (String.ofList v)) q (body ++ [q]) rest where
  gap := by rcases hq with rfl | rfl <;> rfl
  slash := by rcases hq with rfl | rfl <;> decide
  read := fun previous pos => by
    have hquote : q = '"' ∨ q = '\x27' := hq
    rw [lexemeAt, if_pos hquote, List.append_assoc, List.singleton_append, h]
    simp

theorem lexemeAt_string (value : String) (rest : List Char) :
    LexemeAt (.string value) '"' (Json.escape value.toList ++ ['"']) rest := by
  have hread := lexemeAt_quoted (Or.inl rfl) (stringBody_escape value.toList rest)
  rwa [String.ofList_toList] at hread

theorem lexemeAt_mark {m : Mark} {rest : List Char} (hrest : ∀ c ∈ rest.head?, m.goesOn c = false) :
    ∃ c r, m.spelling.toList = c :: r ∧ LexemeAt (.mark m) c r rest := by
  obtain ⟨c, r, hcons, hc⟩ := m.spelling_eq_cons
  have hgraphic : Graphic c := graphic_of hc rfl
  obtain ⟨hdigit, hword⟩ := classes_of_markStarts hc
  have hnumber : ¬(c.isDigit = true ∨ (c = '.' ∧ (r ++ rest).head?.any Char.isDigit = true)) := by
    rw [hdigit]
    rintro (h | ⟨rfl, h⟩)
    · cases h
    rcases Mark.eq_of_spelling hcons with ⟨rfl, rfl⟩ | ⟨rfl, rfl⟩
    · rcases rest with _ | ⟨d, rest⟩
      · cases h
      · have hgoes := hrest d rfl
        rw [Mark.goesOn, show d.isDigit = true from h] at hgoes
        cases hgoes
    · cases h
  have hlength : m.spelling.length - 1 = r.length := by
    rw [← String.length_toList, hcons, List.length_cons, Nat.add_sub_cancel]
  refine ⟨c, r, hcons, hgraphic.isGap, hgraphic.ne_slash, fun previous pos => ?_⟩
  rw [lexemeAt, if_neg hgraphic.not_quote.1, if_neg hgraphic.not_quote.2, if_neg hnumber,
    if_neg (by simp [hgraphic.ne_slash]), if_neg (by simp [hword]), ← List.cons_append, ← hcons,
    operator?_spelling hrest]
  simp only [operatorLexeme_spelling, hlength]

/-- A lexeme is read back from its text, in front of any text that does not change it. -/
theorem Lexeme.Writable.exists_lexemeAt {l : Lexeme} (hl : l.Writable) {rest : List Char}
    (hrest : ∀ c ∈ rest.head?, l.goesOn c = false) :
    ∃ c r, l.written = c :: r ∧ LexemeAt l c r rest := by
  cases hl with
  | word hname =>
    obtain ⟨c, r, hcons, hc, hr⟩ := hname.eq_cons
    exact ⟨c, r, hcons, lexemeAt_word hcons hc hr hrest⟩
  | number hspelling =>
    exact lexemeAt_number hspelling fun c hc => by simpa [goesOn, and_assoc] using hrest c hc
  | string value =>
    rw [written_string]
    exact ⟨_, _, rfl, lexemeAt_string value rest⟩
  | mark m => exact lexemeAt_mark hrest

end CallContract.Source
