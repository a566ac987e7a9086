import CallContract.Proofs.Source.Literal.Json

/-!
# Every text has a literal

A text can be written as a literal in many ways. As JSON text it is between double quotes, with
short escapes for some characters; with an escape of four hexadecimal digits for each of its
UTF-16 code units it may be between quotes of either kind. Each of these is one token with the
text as its value (`tokenize_spelled`). In the second spelling a character beyond U+FFFF is two
escapes, one for each half of its surrogate pair, which are joined again
(`joinHalves_units`).
-/

namespace CallContract.Source

open Json (isHighHalf isLowHalf joinHalves hexUnit?)

/-! ## Code units -/

/-- The UTF-16 code units of a character: its number, or the halves of a surrogate pair. -/
def units (c : Char) : List Nat :=
  if c.toNat < 0x10000 then [c.toNat]
  else [0xD800 + (c.toNat - 0x10000) / 0x400, 0xDC00 + (c.toNat - 0x10000) % 0x400]

theorem toNat_lt (c : Char) : c.toNat < 0x110000 := by
  have hvalid : c.toNat.isValidChar := c.valid
  simp only [Nat.isValidChar] at hvalid
  omega

theorem lt_of_mem_units {c : Char} {u : Nat} (h : u ∈ units c) : u < 0x10000 := by
  have hc := toNat_lt c
  unfold units at h
  split at h
  · rw [List.mem_singleton.mp h]
    assumption
  · simp only [List.mem_cons, List.not_mem_nil, or_false] at h
    omega

/-- A character that is one unit is no half of a pair. -/
theorem not_half_toNat (c : Char) : isHighHalf c.toNat = false ∧ isLowHalf c.toNat = false := by
  have hvalid : c.toNat.isValidChar := c.valid
  simp only [Nat.isValidChar] at hvalid
  simp only [isHighHalf, isLowHalf, Bool.and_eq_false_iff, decide_eq_false_iff_not]
  omega

/-- The halves of a pair are joined to the character that they were made of. -/
theorem joinHalves_units {c : Char} (hc : ¬c.toNat < 0x10000) :
    isHighHalf (0xD800 + (c.toNat - 0x10000) / 0x400) = true ∧
      isLowHalf (0xDC00 + (c.toNat - 0x10000) % 0x400) = true ∧
      joinHalves (0xD800 + (c.toNat - 0x10000) / 0x400) (0xDC00 + (c.toNat - 0x10000) % 0x400) =
        c := by
  have hlt := toNat_lt c
  have hjoin : 0x10000 + (0xD800 + (c.toNat - 0x10000) / 0x400 - 0xD800) * 0x400 +
      (0xDC00 + (c.toNat - 0x10000) % 0x400 - 0xDC00) = c.toNat := by omega
  refine ⟨?_, ?_, ?_⟩
  · simp only [isHighHalf, Bool.and_eq_true, decide_eq_true_iff]
    omega
  · simp only [isLowHalf, Bool.and_eq_true, decide_eq_true_iff]
    omega
  · rw [joinHalves, hjoin, Char.ofNat_toNat]

/-! ## Spelled units -/

/-- The digits from zero to nine and those from ten to fifteen, in lower and in upper case. -/
def hexDigits : List (Char × Char) :=
  [('0', '0'), ('1', '1'), ('2', '2'), ('3', '3'), ('4', '4'), ('5', '5'), ('6', '6'), ('7', '7'),
    ('8', '8'), ('9', '9'), ('a', 'A'), ('b', 'B'), ('c', 'C'), ('d', 'D'), ('e', 'E'), ('f', 'F')]

/-- A hexadecimal digit, in lower or upper case. -/
def HexDigit (n : Nat) (c : Char) : Prop := ∃ p, hexDigits[n]? = some p ∧ (c = p.1 ∨ c = p.2)

theorem HexDigit.lower (n : Fin 16) : HexDigit n (hexDigits.get n).1 :=
  ⟨_, List.getElem?_eq_getElem n.isLt, Or.inl rfl⟩

theorem HexDigit.upper (n : Fin 16) : HexDigit n (hexDigits.get n).2 :=
  ⟨_, List.getElem?_eq_getElem n.isLt, Or.inr rfl⟩

/-- Four hexadecimal digits of either case spell a unit. -/
def SpellsUnit (u : Nat) (a b c d : Char) : Prop :=
  ∃ h i j k, HexDigit h a ∧ HexDigit i b ∧ HexDigit j c ∧ HexDigit k d ∧
    u = ((h * 16 + i) * 16 + j) * 16 + k

/-- A text is made of an escape of four hexadecimal digits for each of some units. -/
inductive SpellsUnits : List Nat → List Char → Prop
  | nil : SpellsUnits [] []
  | cons {u : Nat} {us : List Nat} {a b c d : Char} {s : List Char} : SpellsUnit u a b c d →
    SpellsUnits us s → SpellsUnits (u :: us) ('\\' :: 'u' :: a :: b :: c :: d :: s)

theorem SpellsUnits.eq_of_cons {u : Nat} {us : List Nat} {s : List Char}
    (h : SpellsUnits (u :: us) s) : ∃ a b c d t, s = '\\' :: 'u' :: a :: b :: c :: d :: t ∧
      SpellsUnit u a b c d ∧ SpellsUnits us t := by
  cases h with
  | cons hspells hs => exact ⟨_, _, _, _, _, rfl, hspells, hs⟩

theorem digitValue?_of_hexDigit {n : Nat} {c : Char} (h : HexDigit n c) :
    Text.digitValue? 16 c = some n := by
  have hall : ∀ n : Fin 16, Text.digitValue? 16 (hexDigits.get n).1 = some n.val ∧
      Text.digitValue? 16 (hexDigits.get n).2 = some n.val := by decide
  obtain ⟨p, hp, hc⟩ := h
  obtain ⟨hn, rfl⟩ := List.getElem?_eq_some_iff.mp hp
  rcases hc with rfl | rfl
  · exact (hall ⟨n, hn⟩).1
  · exact (hall ⟨n, hn⟩).2

theorem hexUnit?_of_spellsUnit {u : Nat} {a b c d : Char} (h : SpellsUnit u a b c d) :
    hexUnit? a b c d = some u := by
  obtain ⟨h, i, j, k, ha, hb, hc, hd, rfl⟩ := h
  simp [hexUnit?, Text.natural?, Text.naturalFrom?, digitValue?_of_hexDigit ha,
    digitValue?_of_hexDigit hb, digitValue?_of_hexDigit hc, digitValue?_of_hexDigit hd]

/-- Every unit can be spelled. -/
theorem exists_spellsUnit {u : Nat} (hu : u < 0x10000) : ∃ a b c d, SpellsUnit u a b c d := by
  have hdigit : ∀ n < 16, ∃ c, HexDigit n c := fun n hn => ⟨_, HexDigit.lower ⟨n, hn⟩⟩
  obtain ⟨a, ha⟩ := hdigit (u / 4096) (by omega)
  obtain ⟨b, hb⟩ := hdigit (u / 256 % 16) (by omega)
  obtain ⟨c, hc⟩ := hdigit (u / 16 % 16) (by omega)
  obtain ⟨d, hd⟩ := hdigit (u % 16) (by omega)
  exact ⟨a, b, c, d, _, _, _, _, ha, hb, hc, hd, by omega⟩

theorem exists_spellsUnits : ∀ {us : List Nat}, (∀ u ∈ us, u < 0x10000) → ∃ s, SpellsUnits us s
  | [], _ => ⟨[], .nil⟩
  | u :: us, h => by
    obtain ⟨hu, hus⟩ := List.forall_mem_cons.mp h
    obtain ⟨a, b, c, d, hspells⟩ := exists_spellsUnit hu
    obtain ⟨s, hs⟩ := exists_spellsUnits hus
    exact ⟨_, .cons hspells hs⟩

/-! ## Literals -/

/-- Escapes for the units of a text are read as the text, between quotes of either kind. -/
theorem stringBody_of_spellsUnits {q : Char} (hq : IsQuote q) (rest : List Char) :
    ∀ {v body : List Char}, SpellsUnits (v.flatMap units) body →
      stringBody q (body ++ q :: rest) = .ok (v, body.length + 1)
  | [], body, h => by
    rw [List.flatMap_nil] at h
    cases h
    rw [List.nil_append, stringBody, if_pos rfl]
    rfl
  | x :: v, body, h => by
    rw [List.flatMap_cons, units] at h
    split at h
    · obtain ⟨a, b, c, d, s, rfl, hspells, hs⟩ := h.eq_of_cons
      obtain ⟨hhigh, hlow⟩ := not_half_toNat x
      have hescape := escape?_of_hexUnit? (s := s ++ q :: rest) (hexUnit?_of_spellsUnit hspells)
        hhigh hlow
      rw [Char.ofNat_toNat] at hescape
      exact stringBody_escaped (w := [a, b, c, d]) hq hescape (stringBody_of_spellsUnits hq rest hs)
    · rename_i hpair
      obtain ⟨hhigh, hlow, hjoin⟩ := joinHalves_units hpair
      obtain ⟨a, b, c, d, s, rfl, hspells, hs⟩ := h.eq_of_cons
      obtain ⟨a', b', c', d', s, rfl, hspells', hs⟩ := hs.eq_of_cons
      have hescape := escape?_of_halves (s := s ++ q :: rest) (hexUnit?_of_spellsUnit hspells)
        (hexUnit?_of_spellsUnit hspells') hhigh hlow
      rw [hjoin] at hescape
      exact stringBody_escaped (w := [a, b, c, d, '\\', 'u', a', b', c', d']) hq hescape
        (stringBody_of_spellsUnits hq rest hs)

/-- A text is one string literal with a value, and nothing else. -/
def IsStringLiteral (text : List Char) (value : String) : Prop :=
  tokenize text = .ok ⟨[⟨.string value, 0, width text, false⟩], [], width text⟩

theorem isStringLiteral_quoted {q : Char} (hq : IsQuote q) {body v : List Char}
    (h : stringBody q (body ++ [q]) = .ok (v, body.length + 1)) :
    IsStringLiteral (q :: (body ++ [q])) (String.ofList v) :=
  (lexemeAt_quoted hq h).tokenize_eq

/-- A text is the value of the literal that is its JSON text, and of every literal that has an
escape for each of its UTF-16 code units, of which there are some. -/
theorem tokenize_spelled (value : String) :
    IsStringLiteral (Json.Value.string value).compact.toList value ∧
      (∃ body, SpellsUnits (value.toList.flatMap units) body) ∧
      ∀ q body, q = '"' ∨ q = '\x27' → SpellsUnits (value.toList.flatMap units) body →
        IsStringLiteral (q :: (body ++ [q])) value := by
  refine ⟨?_, exists_spellsUnits fun u hu => ?_, fun q body hq hbody => ?_⟩
  · have hjson := isStringLiteral_quoted (Or.inl rfl) (stringBody_escape value.toList [])
    rw [String.ofList_toList] at hjson
    rwa [show (Json.Value.string value).compact.toList = _ from Lexeme.written_string value]
  · obtain ⟨c, -, hc⟩ := List.mem_flatMap.mp hu
    exact lt_of_mem_units hc
  · have hspelled := isStringLiteral_quoted hq (stringBody_of_spellsUnits hq [] hbody)
    rwa [String.ofList_toList] at hspelled

/-- Escapes for a letter with an accent, the two halves of a pair and both quotes. -/
def spelledUnits : List Char := "\\u00E9\\ud83D\\uDE00\\u0022\\u0027".toList

theorem tokenize_spelled_pair : IsStringLiteral "\"é😀\\\"'\"".toList "é😀\"'" ∧
    SpellsUnits ("é😀\"'".toList.flatMap units) spelledUnits ∧
    IsStringLiteral ('"' :: (spelledUnits ++ ['"'])) "é😀\"'" ∧
    IsStringLiteral ('\x27' :: (spelledUnits ++ ['\x27'])) "é😀\"'" := by
  have hunits : "é😀\"'".toList.flatMap units = [0xE9, 0xD83D, 0xDE00, 0x22, 0x27] := by cbv
  have htext : spelledUnits = ['\\', 'u', '0', '0', 'E', '9', '\\', 'u', 'd', '8', '3', 'D',
      '\\', 'u', 'D', 'E', '0', '0', '\\', 'u', '0', '0', '2', '2', '\\', 'u', '0', '0', '2',
      '7'] := by cbv
  have hspells : SpellsUnits ("é😀\"'".toList.flatMap units) spelledUnits := by
    rw [hunits, htext]
    exact .cons ⟨0, 0, 14, 9, .lower 0, .lower 0, .upper 14, .lower 9, rfl⟩ <|
      .cons ⟨13, 8, 3, 13, .lower 13, .lower 8, .lower 3, .upper 13, rfl⟩ <|
      .cons ⟨13, 14, 0, 0, .upper 13, .upper 14, .lower 0, .lower 0, rfl⟩ <|
      .cons ⟨0, 0, 2, 2, .lower 0, .lower 0, .lower 2, .lower 2, rfl⟩ <|
      .cons ⟨0, 0, 2, 7, .lower 0, .lower 0, .lower 2, .lower 7, rfl⟩ .nil
  obtain ⟨hjson, -, hquoted⟩ := tokenize_spelled "é😀\"'"
  have hcompact : (Json.Value.string "é😀\"'").compact.toList = "\"é😀\\\"'\"".toList := by cbv
  rw [hcompact] at hjson
  exact ⟨hjson, hspells, hquoted '"' _ (Or.inl rfl) hspells, hquoted '\x27' _ (Or.inr rfl) hspells⟩

end CallContract.Source
