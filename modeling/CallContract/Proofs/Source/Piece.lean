import CallContract.Proofs.Prefix
import CallContract.Proofs.Source.CutUp

/-!
# Where tokens and comments stand

`tokenize` gives tokens and comments in two lists. Here they are one list of pieces :
`Laid pos broken s ps` says that the text `s`, which stands at byte `pos`, is the pieces `ps`
in order with nothing but blanks between them, each piece spelled by the characters that it
spans. Every text that can be cut up is laid out by its tokens and comments (`exists_laid`).

It follows that pieces are not empty and do not overlap (`Laid.bounds`, `Laid.pairwise`), so a
comment lies in front of a token or behind it (`apart_of_tokenize`), and that a piece is cut
out of the text at character boundaries (`Laid.slice`).
-/

namespace CallContract.Source

/-- What stands between the blanks of a text. -/
inductive Piece where
  | token (t : Token)
  | comment (c : Comment)

namespace Piece

/-- The byte offset at which a piece starts. -/
def start : Piece → Nat
  | token t => t.start
  | comment c => c.start

/-- The byte offset at which a piece stops. -/
def stop : Piece → Nat
  | token t => t.stop
  | comment c => c.stop

/-- The token that a piece is. -/
def token? : Piece → Option Token
  | token t => some t
  | comment _ => none

/-- The comment that a piece is. -/
def comment? : Piece → Option Comment
  | token _ => none
  | comment c => some c

/-- `p.Spells body rest` : the piece is read from `body` when `rest` follows. -/
inductive Spells : Piece → List Char → List Char → Prop
  | lexeme {t : Token} {previous : Option Lexeme} {c : Char} {r : List Char} {n : Nat} :
    lexemeAt previous t.start c r = .ok (t.lexeme, n) →
      Spells (token t) (c :: r.take n) (r.drop n)
  | line {c : Comment} {rest : List Char} : c.isBlock = false → '\n' ∉ c.text.toList →
      (∀ d, rest.head? = some d → d = '\n') →
      Spells (comment c) ('/' :: '/' :: c.text.toList) rest
  | block {c : Comment} {rest : List Char} : c.isBlock = true →
      Spells (comment c) ('/' :: '*' :: (c.text.toList ++ ['*', '/'])) rest

/-- A piece takes at least one byte. -/
theorem Spells.width_pos {p : Piece} {body rest : List Char} (h : p.Spells body rest) :
    0 < width body := by
  cases h with
  | @lexeme _ _ c _ _ _ =>
    have := Char.utf8Size_pos c
    simp only [width_cons]
    omega
  | line => simp only [width_cons]; exact Nat.add_pos_left (Char.utf8Size_pos _) _
  | block => simp only [width_cons]; exact Nat.add_pos_left (Char.utf8Size_pos _) _

end Piece

/-- The text `s` at byte `pos` is the pieces in order, apart from blanks; `broken` says whether
a line break came since the last token. -/
inductive Laid : Nat → Bool → List Char → List Piece → Prop
  | nil {pos : Nat} {broken : Bool} : Laid pos broken [] []
  | gap {pos : Nat} {broken : Bool} {c : Char} {s : List Char} {ps : List Piece} :
    isGap c = true → Laid (pos + 1) (broken || c = '\n') s ps → Laid pos broken (c :: s) ps
  | token {broken : Bool} {t : Token} {body rest : List Char} {ps : List Piece} :
    (Piece.token t).Spells body rest → t.stop = t.start + width body → t.afterBreak = broken →
      Laid t.stop false rest ps → Laid t.start broken (body ++ rest) (.token t :: ps)
  | comment {broken : Bool} {c : Comment} {body rest : List Char} {ps : List Piece} :
    (Piece.comment c).Spells body rest → c.stop = c.start + width body →
      Laid c.stop (broken || (c.isBlock && c.text.toList.contains '\n')) rest ps →
      Laid c.start broken (body ++ rest) (.comment c :: ps)

/-- The text up to the end of a block comment. -/
theorem eq_append_of_blockLength? : ∀ {s : List Char} {n : Nat}, blockLength? s = some n →
    s = s.take n ++ '*' :: '/' :: s.drop (n + 2) := by
  intro s
  fun_induction blockLength? s with
  | case1 => intro n h; cases h
  | case2 s => intro n h; cases h; rfl
  | case3 c s _ ih =>
    intro n h
    obtain ⟨m, hm, rfl⟩ := Option.map_eq_some_iff.mp h
    rw [List.take_succ_cons, List.cons_append, List.drop_succ_cons, ← ih hm]

namespace Laid

/-- A line comment in front of a text that is laid out. -/
theorem line {pos : Nat} {broken : Bool} {text rest : List Char} {ps : List Piece}
    (ht : '\n' ∉ text) (hr : ∀ d, rest.head? = some d → d = '\n')
    (h : Laid (pos + 2 + width text) broken rest ps) :
    Laid pos broken ('/' :: '/' :: (text ++ rest))
      (.comment ⟨false, String.ofList text, pos, pos + 2 + width text⟩ :: ps) := by
  have hs := Piece.Spells.line (c := ⟨false, String.ofList text, pos, pos + 2 + width text⟩) rfl
    (by rwa [String.toList_ofList]) hr
  have hw : pos + 2 + width text = pos + width ('/' :: '/' :: text) := by
    simp only [width_cons, show '/'.utf8Size = 1 from rfl]
    omega
  have hlaid : Laid pos broken _ _ := Laid.comment hs (by simpa using hw) (by simpa using h)
  simpa using hlaid

/-- A block comment in front of a text that is laid out. -/
theorem block {pos : Nat} {broken : Bool} {text rest : List Char} {ps : List Piece}
    (h : Laid (pos + 4 + width text) (broken || text.contains '\n') rest ps) :
    Laid pos broken ('/' :: '*' :: (text ++ '*' :: '/' :: rest))
      (.comment ⟨true, String.ofList text, pos, pos + 4 + width text⟩ :: ps) := by
  have hs : Piece.Spells (.comment ⟨true, String.ofList text, pos, pos + 4 + width text⟩) _ rest :=
    Piece.Spells.block rfl
  have hw : pos + 4 + width text = pos + width ('/' :: '*' :: (text ++ ['*', '/'])) := by
    simp only [width_cons, width_append, width_nil, show '/'.utf8Size = 1 from rfl,
      show '*'.utf8Size = 1 from rfl]
    omega
  have hlaid : Laid pos broken _ _ := Laid.comment hs (by simpa using hw) (by simpa using h)
  simpa using hlaid

/-- A token in front of a text that is laid out. -/
theorem lexeme {pos n : Nat} {broken : Bool} {previous : Option Lexeme} {l : Lexeme} {c : Char}
    {r : List Char} {ps : List Piece} (hl : lexemeAt previous pos c r = .ok (l, n))
    (h : Laid (pos + c.utf8Size + width (r.take n)) false (r.drop n) ps) :
    Laid pos broken (c :: r)
      (.token ⟨l, pos, pos + c.utf8Size + width (r.take n), broken⟩ :: ps) := by
  have hs := Piece.Spells.lexeme
    (t := ⟨l, pos, pos + c.utf8Size + width (r.take n), broken⟩) hl
  have hw : pos + c.utf8Size + width (r.take n) = pos + width (c :: r.take n) := by
    rw [width_cons, Nat.add_assoc]
  simpa using Laid.token hs hw rfl h

end Laid

/-- A text that can be cut up is laid out by its tokens and comments. -/
theorem exists_laid {pos : Nat} {broken : Bool} {previous : Option Lexeme} {s : List Char}
    {p : Pieces} (h : piecesFrom pos broken previous s = .ok p) :
    ∃ ps, Laid pos broken s ps ∧ p.tokens = ps.filterMap Piece.token? ∧
      p.comments = ps.filterMap Piece.comment? := by
  have hcut := cutUp_of_piecesFrom h
  clear h
  induction hcut with
  | nil => exact ⟨[], .nil, rfl, rfl⟩
  | gap hc _ ih =>
    obtain ⟨ps, hl, ht, hm⟩ := ih
    exact ⟨ps, .gap hc hl, ht, hm⟩
  | @line pos broken previous r p _ ih =>
    obtain ⟨ps, hl, ht, hm⟩ := ih
    rw [drop_length_takeWhile] at hl
    have hr : r.takeWhile (· ≠ '\n') ++ r.dropWhile (· ≠ '\n') = r :=
      List.takeWhile_append_dropWhile
    have htext : '\n' ∉ r.takeWhile (· ≠ '\n') := fun hm => by
      simpa using List.mem_takeWhile_imp hm
    have hrest : ∀ d, (r.dropWhile (· ≠ '\n')).head? = some d → d = '\n' := fun d hd => by
      have := List.head?_dropWhile_not (· ≠ '\n') r
      rw [hd] at this
      simpa using this
    have hlaid := Laid.line htext hrest hl
    rw [hr] at hlaid
    exact ⟨_, hlaid, by rw [ht]; rfl, by rw [hm]; rfl⟩
  | @block pos n broken previous r p hn _ ih =>
    obtain ⟨ps, hl, ht, hm⟩ := ih
    have hlaid := Laid.block hl
    rw [← eq_append_of_blockLength? hn] at hlaid
    exact ⟨_, hlaid, by rw [ht]; rfl, by rw [hm]; rfl⟩
  | lexeme _ _ _ hx _ ih =>
    obtain ⟨ps, hl, ht, hm⟩ := ih
    exact ⟨_, .lexeme hx hl, by rw [ht]; rfl, by rw [hm]; rfl⟩

/-! ## Where pieces start and stop -/

theorem utf8Size_of_isGap {c : Char} (h : isGap c = true) : c.utf8Size = 1 := by
  simp only [isGap, Bool.or_eq_true, decide_eq_true_eq] at h
  rcases h with (((rfl | rfl) | rfl) | rfl) | rfl <;> rfl

namespace Laid

variable {pos : Nat} {broken : Bool} {s : List Char} {ps : List Piece}

/-- A piece is a stretch of the text, and spelled by it. -/
theorem slice (h : Laid pos broken s ps) : ∀ p ∈ ps, ∃ pre body post,
    s = pre ++ (body ++ post) ∧ p.start = pos + width pre ∧ p.stop = p.start + width body ∧
      p.Spells body post := by
  induction h with
  | nil => simp
  | @gap pos broken c s ps hc _ ih =>
    intro p hp
    obtain ⟨pre, body, post, rfl, hstart, hstop, hs⟩ := ih p hp
    refine ⟨c :: pre, body, post, rfl, ?_, hstop, hs⟩
    rw [hstart, width_cons, utf8Size_of_isGap hc, Nat.add_assoc]
  | @token broken t body rest ps hs hstop _ _ ih =>
    intro p hp
    rcases List.mem_cons.mp hp with rfl | hp
    · exact ⟨[], body, rest, rfl, rfl, hstop, hs⟩
    · obtain ⟨pre, body', post, rfl, hstart, hstop', hs'⟩ := ih p hp
      refine ⟨body ++ pre, body', post, by simp, ?_, hstop', hs'⟩
      rw [hstart, hstop, width_append, Nat.add_assoc]
  | @comment broken c body rest ps hs hstop _ ih =>
    intro p hp
    rcases List.mem_cons.mp hp with rfl | hp
    · exact ⟨[], body, rest, rfl, rfl, hstop, hs⟩
    · obtain ⟨pre, body', post, rfl, hstart, hstop', hs'⟩ := ih p hp
      refine ⟨body ++ pre, body', post, by simp, ?_, hstop', hs'⟩
      rw [hstart, hstop, width_append, Nat.add_assoc]

/-- Pieces lie within the text and are not empty. -/
theorem bounds (h : Laid pos broken s ps) :
    ∀ p ∈ ps, pos ≤ p.start ∧ p.start < p.stop ∧ p.stop ≤ pos + width s := by
  intro p hp
  obtain ⟨pre, body, post, rfl, hstart, hstop, hs⟩ := h.slice p hp
  have := hs.width_pos
  simp only [width_append]
  omega

/-- Each piece stops before the next one starts. -/
theorem pairwise (h : Laid pos broken s ps) : ps.Pairwise fun p q => p.stop ≤ q.start := by
  induction h with
  | nil => exact .nil
  | gap _ _ ih => exact ih
  | token _ _ _ hl ih => exact .cons (fun q hq => (hl.bounds q hq).1) ih
  | comment _ _ hl ih => exact .cons (fun q hq => (hl.bounds q hq).1) ih

end Laid

/-! ## Tokens and comments of a text -/

/-- The pieces of a text that can be cut up. -/
theorem laid_of_tokenize {s : List Char} {l : Lexed} (h : tokenize s = .ok l) :
    ∃ ps, Laid 0 false s ps ∧ l.tokens = ps.filterMap Piece.token? ∧
      l.comments = ps.filterMap Piece.comment? := by
  unfold tokenize at h
  split at h
  · simp at h
  · rename_i p hp
    cases h
    exact exists_laid hp

section Tokenize

variable {s : List Char} {l : Lexed}

theorem eq_token_of_token? {p : Piece} {t : Token} (h : p.token? = some t) : p = .token t := by
  cases p with
  | token u => cases h; rfl
  | comment c => cases h

theorem eq_comment_of_comment? {p : Piece} {c : Comment} (h : p.comment? = some c) :
    p = .comment c := by
  cases p with
  | token t => cases h
  | comment d => cases h; rfl

/-- Each token stops before the next one starts. -/
theorem tokens_pairwise (h : tokenize s = .ok l) :
    l.tokens.Pairwise fun t u => t.stop ≤ u.start := by
  obtain ⟨ps, hl, ht, -⟩ := laid_of_tokenize h
  rw [ht, List.pairwise_filterMap]
  refine hl.pairwise.imp fun {p q} hpq t hp u hq => ?_
  rw [eq_token_of_token? hp, eq_token_of_token? hq] at hpq
  exact hpq

/-- Each comment stops before the next one starts. -/
theorem comments_pairwise (h : tokenize s = .ok l) :
    l.comments.Pairwise fun c d => c.stop ≤ d.start := by
  obtain ⟨ps, hl, -, hc⟩ := laid_of_tokenize h
  rw [hc, List.pairwise_filterMap]
  refine hl.pairwise.imp fun {p q} hpq c hp d hq => ?_
  rw [eq_comment_of_comment? hp, eq_comment_of_comment? hq] at hpq
  exact hpq

theorem start_lt_stop_of_mem_tokens (h : tokenize s = .ok l) {t : Token} (ht : t ∈ l.tokens) :
    t.start < t.stop := by
  obtain ⟨ps, hl, hts, -⟩ := laid_of_tokenize h
  rw [hts] at ht
  obtain ⟨p, hp, hpt⟩ := List.mem_filterMap.mp ht
  obtain rfl := eq_token_of_token? hpt
  exact (hl.bounds _ hp).2.1

theorem start_lt_stop_of_mem_comments (h : tokenize s = .ok l) {c : Comment}
    (hc : c ∈ l.comments) : c.start < c.stop := by
  obtain ⟨ps, hl, -, hcs⟩ := laid_of_tokenize h
  rw [hcs] at hc
  obtain ⟨p, hp, hpc⟩ := List.mem_filterMap.mp hc
  obtain rfl := eq_comment_of_comment? hpc
  exact (hl.bounds _ hp).2.1

/-- A comment lies in front of a token or behind it. -/
theorem apart_of_tokenize (h : tokenize s = .ok l) {t : Token} {c : Comment} (ht : t ∈ l.tokens)
    (hc : c ∈ l.comments) : c.stop ≤ t.start ∨ t.stop ≤ c.start := by
  obtain ⟨ps, hl, hts, hcs⟩ := laid_of_tokenize h
  rw [hts] at ht
  rw [hcs] at hc
  obtain ⟨p, hp, hpt⟩ := List.mem_filterMap.mp ht
  obtain ⟨q, hq, hqc⟩ := List.mem_filterMap.mp hc
  obtain rfl := eq_token_of_token? hpt
  obtain rfl := eq_comment_of_comment? hqc
  have hapart : ps.Pairwise fun p q => q.stop ≤ p.start ∨ p.stop ≤ q.start :=
    hl.pairwise.imp Or.inr
  have : Std.Symm fun p q : Piece => q.stop ≤ p.start ∨ p.stop ≤ q.start := ⟨fun _ _ => Or.symm⟩
  exact hapart.forall hp hq (by simp)

/-- The text of a token is a stretch of the source text. -/
theorem slice_of_mem_tokens (h : tokenize s = .ok l) {t : Token} (ht : t ∈ l.tokens) :
    ∃ pre body post, s = pre ++ (body ++ post) ∧ t.start = width pre ∧
      t.stop = width pre + width body ∧ (Piece.token t).Spells body post := by
  obtain ⟨ps, hl, hts, -⟩ := laid_of_tokenize h
  rw [hts] at ht
  obtain ⟨p, hp, hpt⟩ := List.mem_filterMap.mp ht
  obtain rfl := eq_token_of_token? hpt
  obtain ⟨pre, body, post, hs, hstart, hstop, hsp⟩ := hl.slice _ hp
  simp only [Piece.start, Piece.stop, Nat.zero_add] at hstart hstop
  exact ⟨pre, body, post, hs, hstart, by rw [hstop, hstart], hsp⟩

end Tokenize

end CallContract.Source
