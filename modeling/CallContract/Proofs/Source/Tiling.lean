import CallContract.Proofs.Path.Above
import CallContract.Proofs.Source.Piece
import CallContract.Source.Stretch
import Mathlib

/-!
# A text is tiled by its tokens and comments

The pieces of a text (`Piece`) stand in order and between character boundaries, and apart from
white space they are the whole text (`Laid.covered`). A piece that keeps its spelling is spelled
as the text between its ends is (`Laid.spelling_eq`), and a token comes after a line break if a
line feed stands between the token in front of it and itself, within a comment or not
(`Laid.lineFeed`). Together these say where the tokens and the comments of a text come from
(`tiled_of_tokenize`).
-/

namespace CallContract.Source

/-! ## Spellings -/

/-- The spelling of a lexeme that keeps it. -/
def Lexeme.spelling? : Lexeme → Option String
  | word name => some name
  | number spelling => some spelling
  | mark m => some m.spelling
  | operator spelling => some spelling
  | string _ | template _ | regex => none

/-- A comment with its delimiters. -/
def Comment.spelling (c : Comment) : List Char :=
  if c.isBlock then '/' :: '*' :: (c.text.toList ++ ['*', '/']) else '/' :: '/' :: c.text.toList

/-- The spelling of a piece that keeps it. -/
def Piece.spelling? : Piece → Option (List Char)
  | token t => t.lexeme.spelling?.map String.toList
  | comment c => some c.spelling

theorem spelling_of_ofSpelling? {o : String} {m : Mark} (h : Mark.ofSpelling? o = some m) :
    m.spelling = o := by
  simpa using List.find?_some h

theorem spelling?_operatorLexeme (o : String) : (operatorLexeme o).spelling? = some o := by
  unfold operatorLexeme
  split
  · rename_i m hm
    exact congrArg some (spelling_of_ofSpelling? hm)
  · rfl

theorem toList_ne_nil_of_mem_operators : ∀ o ∈ operators, o.toList ≠ [] := by decide +kernel

/-- An operator is spelled by the text that it is read from. -/
theorem toList_of_operator? {c : Char} {r : List Char} {o : String}
    (h : operator? (c :: r) = some o) : o.toList = c :: r.take (o.length - 1) := by
  have hfind : operators.find? (fun o => Text.startsWith o.toList (c :: r)) = some o := h
  have hstarts := List.find?_some hfind
  obtain ⟨rest, hrest⟩ := Text.startsWith_iff.mp hstarts
  have hne := toList_ne_nil_of_mem_operators o (List.mem_of_find?_eq_some h)
  obtain ⟨d, t, ht⟩ := List.exists_cons_of_ne_nil hne
  rw [ht, List.cons_append] at hrest
  obtain ⟨rfl, rfl⟩ := List.cons.inj hrest
  have hlength : o.length - 1 = t.length := by
    rw [← String.length_toList, ht]
    rfl
  rw [ht, hlength, List.take_left]

/-- A lexeme that keeps its spelling is spelled by the text that it is read from. -/
theorem toList_of_lexemeAt {previous : Option Lexeme} {pos n : Nat} {c : Char} {r : List Char}
    {l : Lexeme} (h : lexemeAt previous pos c r = .ok (l, n)) {s : String}
    (hs : l.spelling? = some s) : s.toList = c :: r.take n := by
  cases scanned_of_lexemeAt h with
  | string | template | regex => cases hs
  | number | word => rw [← Option.some.inj hs, String.toList_ofList]
  | operator _ _ _ _ _ ho =>
    rw [spelling?_operatorLexeme] at hs
    rw [← Option.some.inj hs]
    exact toList_of_operator? ho

theorem Piece.Spells.spelling_eq {p : Piece} {body rest spelling : List Char}
    (h : p.Spells body rest) (hp : p.spelling? = some spelling) : spelling = body := by
  cases h with
  | lexeme hl =>
    obtain ⟨s, hs, rfl⟩ := Option.map_eq_some_iff.mp hp
    exact toList_of_lexemeAt hl hs
  | line hb _ _ => rw [← Option.some.inj hp, Comment.spelling, hb]; rfl
  | block hb => rw [← Option.some.inj hp, Comment.spelling, hb]; rfl

/-! ## Between pieces -/

/-- The white space of ASCII. -/
def blanks : List Char := [' ', '\t', '\n', '\x0c', '\r']

theorem mem_blanks_of_isGap {c : Char} (h : isGap c = true) : c ∈ blanks := by
  simpa [isGap, blanks, or_assoc] using h

/-- The byte at `k` is a blank. -/
def BlankAt (s : List Char) (k : Nat) : Prop :=
  ∃ pre c post, s = pre ++ c :: post ∧ k = width pre ∧ c ∈ blanks

/-- A piece takes the byte at `k`. -/
def Piece.Covers (p : Piece) (k : Nat) : Prop := p.start ≤ k ∧ k < p.stop

/-- What a piece in front does not take lies behind it. -/
theorem covered_append {p : Piece} {body rest : List Char} {ps : List Piece}
    (hstop : p.stop = p.start + width body)
    (h : ∀ k < width rest, (∃ q ∈ ps, q.Covers (p.stop + k)) ∨ BlankAt rest k) :
    ∀ k < width (body ++ rest),
      (∃ q ∈ p :: ps, q.Covers (p.start + k)) ∨ BlankAt (body ++ rest) k := by
  intro k hk
  rw [width_append] at hk
  by_cases hin : k < width body
  · exact Or.inl ⟨p, List.mem_cons_self, Nat.le_add_right _ _, by omega⟩
  · rcases h (k - width body) (by omega) with ⟨q, hq, hqk⟩ | ⟨pre, c, post, rfl, hpre, hc⟩
    · rw [show p.stop + (k - width body) = p.start + k by omega] at hqk
      exact Or.inl ⟨q, List.mem_cons_of_mem _ hq, hqk⟩
    · refine Or.inr ⟨body ++ pre, c, post, (List.append_assoc _ _ _).symm, ?_, hc⟩
      rw [width_append]
      omega

namespace Laid

variable {pos : Nat} {broken : Bool} {s : List Char} {ps : List Piece}

/-- A byte that no piece takes is a blank. -/
theorem covered (h : Laid pos broken s ps) : ∀ k < width s,
    (∃ p ∈ ps, p.Covers (pos + k)) ∨ BlankAt s k := by
  induction h with
  | nil => exact fun k hk => absurd hk (Nat.not_lt_zero k)
  | @gap pos broken c s ps hc _ ih =>
    intro k hk
    rw [width_cons, utf8Size_of_isGap hc] at hk
    rcases k with _ | k
    · exact Or.inr ⟨[], c, s, rfl, rfl, mem_blanks_of_isGap hc⟩
    rcases ih k (by omega) with ⟨p, hp, hpk⟩ | ⟨pre, d, post, rfl, hpre, hd⟩
    · rw [show pos + 1 + k = pos + (k + 1) by omega] at hpk
      exact Or.inl ⟨p, hp, hpk⟩
    · refine Or.inr ⟨c :: pre, d, post, rfl, ?_, hd⟩
      rw [width_cons, utf8Size_of_isGap hc]
      omega
  | token _ hstop _ _ ih => exact covered_append hstop ih
  | comment _ hstop _ ih => exact covered_append hstop ih

/-- What follows a token is laid out by the pieces behind it. -/
theorem behind_token (h : Laid pos broken s ps) {front behind : List Piece} {t : Token}
    (hps : ps = front ++ .token t :: behind) :
    ∃ pre rest, s = pre ++ rest ∧ t.stop = pos + width pre ∧ Laid t.stop false rest behind := by
  induction h generalizing front with
  | nil => simp at hps
  | @gap pos broken c s ps hc _ ih =>
    obtain ⟨pre, rest, rfl, hstop, hl⟩ := ih hps
    refine ⟨c :: pre, rest, rfl, ?_, hl⟩
    rw [hstop, width_cons, utf8Size_of_isGap hc, Nat.add_assoc]
  | @token broken u body rest ps _ hstop _ hl ih =>
    rcases front with _ | ⟨p, front⟩
    · obtain ⟨hu, rfl⟩ := List.cons.inj hps
      obtain rfl := Piece.token.inj hu
      exact ⟨body, rest, rfl, hstop, hl⟩
    · obtain ⟨pre, rest, rfl, hstop', hl'⟩ := ih (List.cons.inj hps).2
      refine ⟨body ++ pre, rest, (List.append_assoc _ _ _).symm, ?_, hl'⟩
      rw [hstop', hstop, width_append, Nat.add_assoc]
  | @comment broken c body rest ps _ hstop hl ih =>
    rcases front with _ | ⟨p, front⟩
    · cases (List.cons.inj hps).1
    · obtain ⟨pre, rest, rfl, hstop', hl'⟩ := ih (List.cons.inj hps).2
      refine ⟨body ++ pre, rest, (List.append_assoc _ _ _).symm, ?_, hl'⟩
      rw [hstop', hstop, width_append, Nat.add_assoc]

/-- Whether a line break comes in front of the first token. -/
theorem lineFeed (h : Laid pos broken s ps) {t : Token} {ts : List Token}
    (hts : ps.filterMap Piece.token? = t :: ts) : ∃ gap rest, s = gap ++ rest ∧
      t.start = pos + width gap ∧ (t.afterBreak = true ↔ broken = true ∨ '\n' ∈ gap) := by
  induction h with
  | nil => cases hts
  | @gap pos broken c s ps hc _ ih =>
    obtain ⟨gap, rest, rfl, hstart, hbreak⟩ := ih hts
    refine ⟨c :: gap, rest, rfl, ?_, ?_⟩
    · rw [hstart, width_cons, utf8Size_of_isGap hc, Nat.add_assoc]
    · rw [hbreak, Bool.or_eq_true, decide_eq_true_iff, List.mem_cons, or_assoc, eq_comm (a := c)]
  | @token broken u body rest ps _ _ hbroken _ _ =>
    obtain rfl : u = t := (List.cons.inj hts).1
    exact ⟨[], body ++ rest, rfl, rfl, by simp [hbroken]⟩
  | @comment broken c body rest ps hs hstop _ ih =>
    obtain ⟨gap, rest, rfl, hstart, hbreak⟩ := ih hts
    refine ⟨body ++ gap, rest, (List.append_assoc _ _ _).symm, ?_, ?_⟩
    · rw [hstart, hstop, width_append, Nat.add_assoc]
    · have hbody : '\n' ∈ body ↔ c.isBlock = true ∧ '\n' ∈ c.text.toList := by
        cases hs with
        | line hb hn _ => simp [hb, hn]
        | block hb => simp [hb]
      rw [hbreak, Bool.or_eq_true, Bool.and_eq_true, List.contains_iff_mem, List.mem_append, hbody,
        or_assoc]

end Laid

/-! ## Tiled texts -/

/-- Where the last of the tokens stops; the start of the text if there are none. -/
def stopOf (ts : List Token) : Nat := (ts.getLast?.map Token.stop).getD 0

/-- The text `s` is made of the pieces `ps` and of blanks between them. -/
structure Tiled (s : List Char) (ps : List Piece) : Prop where
  /-- Each piece stops before the next one starts. -/
  order : ps.Pairwise fun p q => p.stop ≤ q.start
  /-- A piece is a stretch of the text, between the boundaries of characters, and not empty. -/
  stretch : ∀ p ∈ ps, ∃ pre body post, s = pre ++ (body ++ post) ∧ p.start = width pre ∧
    p.stop = width pre + width body ∧ p.start < p.stop ∧ ∀ t ∈ p.spelling?, t = body
  /-- A byte that no piece takes is a blank. -/
  blank : ∀ k < width s, (∀ p ∈ ps, ¬p.Covers k) → BlankAt s k
  /-- A token comes after a line break if there is a line feed between it and the token in front
  of it. -/
  afterBreak : ∀ front t behind, ps.filterMap Piece.token? = front ++ t :: behind →
    ∃ gap, stretch? s (stopOf front) t.start = some gap ∧ (t.afterBreak = true ↔ '\n' ∈ gap)

theorem Laid.tiled {s : List Char} {ps : List Piece} (h : Laid 0 false s ps) : Tiled s ps where
  order := h.pairwise
  stretch p hp := by
    obtain ⟨pre, body, post, hs, hstart, hstop, hspells⟩ := h.slice p hp
    rw [Nat.zero_add] at hstart
    exact ⟨pre, body, post, hs, hstart, by rw [hstop, hstart], (h.bounds p hp).2.1,
      fun t ht => hspells.spelling_eq ht⟩
  blank k hk hno := by
    refine (h.covered k hk).resolve_left ?_
    rintro ⟨p, hp, hpk⟩
    rw [Nat.zero_add] at hpk
    exact hno p hp hpk
  afterBreak front t behind hts := by
    rcases List.eq_nil_or_concat front with rfl | ⟨front, u, rfl⟩
    · obtain ⟨gap, rest, rfl, hstart, hbreak⟩ := h.lineFeed hts
      refine ⟨gap, ?_, by simpa using hbreak⟩
      simpa [stopOf, hstart] using stretch?_width [] gap rest
    · -- cut the pieces behind the token `u`
      rw [List.concat_eq_append, List.append_assoc, List.singleton_append] at hts
      obtain ⟨ps₁, ps₂, rfl, -, hps₂⟩ := List.filterMap_eq_append_iff.mp hts
      obtain ⟨qs, p, ps₃, rfl, -, hp, hps₃⟩ := List.filterMap_eq_cons_iff.mp hps₂
      obtain rfl := eq_token_of_token? hp
      rw [← List.append_assoc] at h
      obtain ⟨pre, rest, rfl, hstop, hl⟩ := h.behind_token rfl
      obtain ⟨gap, rest, rfl, hstart, hbreak⟩ := hl.lineFeed hps₃
      refine ⟨gap, ?_, by simpa using hbreak⟩
      rw [Nat.zero_add] at hstop
      have hfront : stopOf (front.concat u) = width pre := by simp [stopOf, hstop]
      rw [hfront, hstart, hstop, stretch?_width]

/-- The tokens and the comments of a text, put in order, tile the text. -/
theorem tiled_of_tokenize {s : List Char} {l : Lexed} (h : tokenize s = .ok l) :
    ∃ ps, l.tokens = ps.filterMap Piece.token? ∧ l.comments = ps.filterMap Piece.comment? ∧
      Tiled s ps := by
  obtain ⟨ps, hl, ht, hc⟩ := laid_of_tokenize h
  exact ⟨ps, ht, hc, hl.tiled⟩

/-- A text whose characters, numbers, comments and templates take care to be cut : the line feed
in front of the template is in a comment, and the brace in its string closes nothing. -/
def carefulText : List Char :=
  "\u00e9=1e+5/*\n*/\x60$\x7b'\x7d'\x7d\x60//c".toList

theorem tiled_carefulText : ∃ l, tokenize carefulText = .ok l ∧
    l.tokens.map Token.lexeme = [.word "\u00e9", .mark .assign, .number "1e+5", .template none] ∧
    l.tokens.map (fun t => (t.start, t.stop, t.afterBreak)) =
      [(0, 2, false), (2, 3, false), (3, 7, false), (12, 20, true)] ∧
    l.comments = [⟨true, "\n", 7, 12⟩, ⟨false, "c", 20, 23⟩] ∧
    ∃ ps, l.tokens = ps.filterMap Piece.token? ∧ l.comments = ps.filterMap Piece.comment? ∧
      Tiled carefulText ps := by
  have h : tokenize carefulText = .ok ⟨[⟨.word "\u00e9", 0, 2, false⟩,
      ⟨.mark .assign, 2, 3, false⟩, ⟨.number "1e+5", 3, 7, false⟩,
      ⟨.template none, 12, 20, true⟩], [⟨true, "\n", 7, 12⟩, ⟨false, "c", 20, 23⟩], 23⟩ := by cbv
  exact ⟨_, h, rfl, rfl, rfl, tiled_of_tokenize h⟩

end CallContract.Source
