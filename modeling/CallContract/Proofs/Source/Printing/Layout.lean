import CallContract.Proofs.Source.Concatenation.Tokens
import CallContract.Proofs.Source.Printing.Lexeme

/-!
# Laid out lexemes are read back

A style says what stands between two lexemes: nothing but blanks, and a blank at least where the
text of the first would go on with that of the second (`Style`). In every style a text is cut
into the lexemes that it is made of and has no comments, and each token is spelled as its lexeme
is written (`Style.exists_tokenize`).
-/

namespace CallContract.Source

/-- The characters of operators are neither blanks nor digits. -/
theorem not_isGap_of_mem_operators {o : String} (ho : o ∈ operators) {c : Char}
    (hc : c ∈ o.toList) : isGap c = false ∧ c.isDigit = false := by
  have hall : (operators.all fun o => o.toList.all fun c => !isGap c && !c.isDigit) = true := by
    decide +kernel
  simpa using List.all_eq_true.mp (List.all_eq_true.mp hall o ho) c hc

/-- A mark does not go on with a character that no operator has. -/
theorem Mark.goesOn_of_not_mem {m : Mark} {c : Char} (hdot : m = .dot → c.isDigit = false)
    (hc : ∀ o ∈ operators, c ∉ o.toList) : m.goesOn c = false := by
  rw [Mark.goesOn, Bool.or_eq_false_iff, List.any_eq_false]
  refine ⟨?_, fun o ho hstarts => ?_⟩
  · by_cases hm : m = .dot
    · rw [hdot hm, Bool.and_false]
    · rw [beq_eq_false_iff_ne.mpr hm, Bool.false_and]
  · obtain ⟨rest, hrest⟩ := Text.startsWith_iff.mp hstarts
    exact hc o ho (by simp [hrest])

theorem Mark.goesOn_of_isGap (m : Mark) {c : Char} (h : isGap c = true) : m.goesOn c = false := by
  refine goesOn_of_not_mem (fun _ => ?_) fun o ho hc => ?_
  · exact Bool.eq_false_iff.mpr fun hd => by rw [(graphic_of_isDigit hd).isGap] at h; cases h
  · rw [(not_isGap_of_mem_operators ho hc).1] at h
    cases h

theorem Mark.goesOn_of_isDigit {m : Mark} (hm : m ≠ .dot) {c : Char} (h : c.isDigit = true) :
    m.goesOn c = false := by
  refine goesOn_of_not_mem (fun hdot => absurd hdot hm) fun o ho hc => ?_
  rw [(not_isGap_of_mem_operators ho hc).2] at h
  cases h

namespace Lexeme

/-- Whether a lexeme is read the same if another one follows it without a blank. -/
def touches (l m : Lexeme) : Bool := m.written.head?.all fun c => !l.goesOn c

theorem goesOn_of_isGap (l : Lexeme) {c : Char} (h : isGap c = true) : l.goesOn c = false := by
  cases l with
  | mark m => exact m.goesOn_of_isGap h
  | word name =>
    simp only [isGap, Bool.or_eq_true, decide_eq_true_eq] at h
    rcases h with (((rfl | rfl) | rfl) | rfl) | rfl <;> rfl
  | number spelling =>
    simp only [isGap, Bool.or_eq_true, decide_eq_true_eq] at h
    rcases h with (((rfl | rfl) | rfl) | rfl) | rfl <;> rfl
  | _ => rfl

end Lexeme

/-- A style of writing: what stands between two lexemes, whether a property is written short
where that is possible, and whether a comma stands behind the last item of a list. -/
structure Style where
  gap : Lexeme → Lexeme → List Char
  shorthand : Bool
  trailingComma : Bool
  blank : ∀ l m, ∀ c ∈ gap l m, isGap c = true
  apart : ∀ l m, l.touches m = false → gap l m ≠ []

/-- The style with a blank only where there has to be one. -/
def Style.compact (shorthand trailingComma : Bool) : Style where
  gap l m := if l.touches m then [] else [' ']
  shorthand := shorthand
  trailingComma := trailingComma
  blank l m c hc := by
    split at hc
    · cases hc
    · rw [List.mem_singleton.mp hc]
      rfl
  apart l m h := by
    rw [h, if_neg (by decide)]
    decide

/-- A token of a source text is a lexeme and is spelled as the lexeme is written. -/
structure Stands (source : List Char) (t : Token) (l : Lexeme) : Prop where
  lexeme : t.lexeme = l
  text : textOf source [t] = .ok (String.ofList l.written)

/-! ## One lexeme in front -/

theorem LexemeAt.piecesFrom_eq {l : Lexeme} {c : Char} {r rest : List Char}
    (h : LexemeAt l c r rest) (pos : Nat) (broken : Bool) (previous : Option Lexeme) :
    piecesFrom pos broken previous (c :: (r ++ rest)) =
      (piecesFrom (pos + width (c :: r)) false (some l) rest).map fun p =>
        { p with tokens := ⟨l, pos, pos + width (c :: r), broken⟩ :: p.tokens } := by
  have hgap : ¬isGap c = true := by rw [h.gap]; decide
  have hstop : pos + c.utf8Size + width r = pos + width (c :: r) := by
    rw [width_cons, Nat.add_assoc]
  rw [piecesFrom_lexeme hgap (fun hc => h.slash hc.1) (fun hc => h.slash hc.1)
    (h.read previous pos), List.take_left, List.drop_left, hstop]

/-- A text that is read as one lexeme is one token. -/
theorem LexemeAt.tokenize_eq {l : Lexeme} {c : Char} {r : List Char} (h : LexemeAt l c r []) :
    tokenize (c :: r) = .ok ⟨[⟨l, 0, width (c :: r), false⟩], [], width (c :: r)⟩ := by
  have hpieces := h.piecesFrom_eq 0 false none
  rw [List.append_nil, piecesFrom, Nat.zero_add] at hpieces
  rw [tokenize, hpieces]
  rfl

/-- A lexeme in front of a text that does not change it is one token. -/
theorem piecesFrom_written {l : Lexeme} (hl : l.Writable) {s : List Char}
    (hs : ∀ c ∈ s.head?, l.goesOn c = false) (pos : Nat) (broken : Bool)
    (previous : Option Lexeme) : piecesFrom pos broken previous (l.written ++ s) =
      (piecesFrom (pos + width l.written) false (some l) s).map fun p =>
        { p with tokens := ⟨l, pos, pos + width l.written, broken⟩ :: p.tokens } := by
  obtain ⟨c, r, hcons, hread⟩ := hl.exists_lexemeAt hs
  rw [hcons, List.cons_append, hread.piecesFrom_eq]

/-- A name that is made of characters of words is a word. -/
theorem isWord_of_chars {name : String} {c : Char} {r : List Char} (hcons : name.toList = c :: r)
    (hc : startsWord c = true) (hr : r.takeWhile continuesWord = r) : IsWord name := by
  have hread : LexemeAt (.word name) c r [] := lexemeAt_word hcons hc hr (fun _ h => by cases h)
  rw [IsWord, hcons]
  exact ⟨_, hread.tokenize_eq, rfl⟩

/-- The text of a lexeme is not empty. -/
theorem Lexeme.Writable.written_ne_nil {l : Lexeme} (hl : l.Writable) : l.written ≠ [] := by
  have hend : ∀ c ∈ ([] : List Char).head?, l.goesOn c = false := fun _ hc => by cases hc
  obtain ⟨c, r, hcons, -⟩ := hl.exists_lexemeAt hend
  rw [hcons]
  exact List.cons_ne_nil c r

namespace Style

/-- The text of lexemes. -/
def text (y : Style) : List Lexeme → List Char
  | [] => []
  | [l] => l.written
  | l :: m :: ls => l.written ++ (y.gap l m ++ y.text (m :: ls))

/-- What follows a lexeme. -/
def textBehind (y : Style) (l : Lexeme) : List Lexeme → List Char
  | [] => []
  | m :: ls => y.gap l m ++ y.text (m :: ls)

theorem text_cons (y : Style) (l : Lexeme) (ls : List Lexeme) :
    y.text (l :: ls) = l.written ++ y.textBehind l ls := by
  cases ls with
  | nil => exact (List.append_nil _).symm
  | cons m ls => rfl

/-- A lexeme is not changed by what follows it. -/
theorem goesOn_textBehind (y : Style) (l : Lexeme) {ls : List Lexeme}
    (h : ∀ m ∈ ls, m.written ≠ []) : ∀ c ∈ (y.textBehind l ls).head?, l.goesOn c = false := by
  intro c hc
  cases ls with
  | nil => cases hc
  | cons m ls =>
    rw [textBehind] at hc
    cases hgap : y.gap l m with
    | cons d g =>
      rw [hgap] at hc
      obtain rfl := Option.some.inj hc
      exact l.goesOn_of_isGap (y.blank l m d (hgap ▸ List.mem_cons_self))
    | nil =>
      have htouches : l.touches m = true := Bool.not_eq_false _ ▸ fun h => y.apart l m h hgap
      obtain ⟨d, r, hm⟩ := List.exists_cons_of_ne_nil (h m List.mem_cons_self)
      rw [hgap, List.nil_append, text_cons, hm] at hc
      obtain rfl := Option.some.inj hc
      rw [Lexeme.touches, hm] at htouches
      simpa using htouches

/-- A text is cut into the lexemes that it is made of, wherever it stands. -/
theorem exists_piecesFrom (y : Style) : ∀ {ls : List Lexeme}, (∀ l ∈ ls, l.Writable) →
    ∀ (pre : List Char) (broken : Bool) (previous : Option Lexeme), ∃ ts,
      piecesFrom (width pre) broken previous (y.text ls) = .ok ⟨ts, []⟩ ∧
        List.Forall₂ (Stands (pre ++ y.text ls)) ts ls
  | [], _, _, _, _ => ⟨[], by rw [text, piecesFrom], .nil⟩
  | l :: ls, h, pre, broken, previous => by
    obtain ⟨hl, hls⟩ := List.forall_mem_cons.mp h
    have hne : ∀ m ∈ ls, m.written ≠ [] := fun m hm => (hls m hm).written_ne_nil
    -- what is left stands behind the lexeme and the blanks that follow it
    obtain ⟨ts, hts, hstand⟩ : ∃ ts,
        piecesFrom (width (pre ++ l.written)) false (some l) (y.textBehind l ls) = .ok ⟨ts, []⟩ ∧
          List.Forall₂ (Stands (pre ++ y.text (l :: ls))) ts ls := by
      cases ls with
      | nil => exact ⟨[], by rw [textBehind, piecesFrom], .nil⟩
      | cons m ls =>
        obtain ⟨ts, hts, hstand⟩ := y.exists_piecesFrom hls (pre ++ l.written ++ y.gap l m)
          (false || (y.gap l m).contains '\n') (some l)
        rw [width_append _ (y.gap l m)] at hts
        refine ⟨ts, by rw [textBehind, piecesFrom_gaps (y.blank l m), hts], ?_⟩
        rwa [text_cons, textBehind, ← List.append_assoc, ← List.append_assoc]
    rw [width_append] at hts
    refine ⟨⟨l, width pre, width pre + width l.written, broken⟩ :: ts, ?_, .cons ⟨rfl, ?_⟩ hstand⟩
    · rw [text_cons, piecesFrom_written hl (y.goesOn_textBehind l hne), hts]
      rfl
    · exact textOf_token (by rw [text_cons]) rfl rfl

/-- A text is cut into the lexemes that it is made of. -/
theorem exists_tokenize (y : Style) {ls : List Lexeme} (h : ∀ l ∈ ls, l.Writable) : ∃ ts,
    tokenize (y.text ls) = .ok ⟨ts, [], width (y.text ls)⟩ ∧
      List.Forall₂ (Stands (y.text ls)) ts ls := by
  obtain ⟨ts, hts, hstand⟩ := y.exists_piecesFrom h [] false none
  rw [width_nil] at hts
  exact ⟨ts, by rw [tokenize, hts], hstand⟩

end Style

end CallContract.Source
