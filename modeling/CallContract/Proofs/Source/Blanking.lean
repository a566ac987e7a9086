import CallContract.Proofs.Source.Checked.Access
import CallContract.Proofs.Source.Concatenation.Tokens

/-!
# Comments leave no trace

A comment separates tokens as a blank does and breaks a line if there is a line feed in it, and
that is all it does: what it says is in no token. So where the comments of a text are overwritten
with spaces up to their line feeds (`blankedFrom`), the text is cut into the same tokens, at the
same places and behind the same line breaks, and no comment is left (`tokenize_blankedFrom`).

A token ends in front of a comment as it does in front of a space, because no lexeme goes on with
either (`Ends`, `lexemeAt_break`).
-/

namespace CallContract.Source

open Checked (bytesOf bytesOfChar bytesOf_append bytesOf_cons length_bytesOf)

/-! ## Blanks -/

/-- As many spaces as a character has bytes, but a line feed itself. -/
def blank (c : Char) : List Char := if c = '\n' then [c] else List.replicate c.utf8Size ' '

theorem isGap_of_mem_blank {b c : Char} (h : b ∈ blank c) : isGap b = true := by
  unfold blank at h
  split at h
  · rename_i hc
    rw [List.mem_singleton.mp h, hc]
    rfl
  · rw [List.eq_of_mem_replicate h]
    rfl

theorem width_replicate_space : ∀ n : Nat, width (List.replicate n ' ') = n
  | 0 => rfl
  | n + 1 => by
    rw [List.replicate_succ, width_cons, width_replicate_space n, Nat.add_comm]
    rfl

theorem width_blank (c : Char) : width (blank c) = c.utf8Size := by
  unfold blank
  split
  · rw [width_cons, width_nil, Nat.add_zero]
  · exact width_replicate_space _

theorem lineFeed_mem_blank (c : Char) : '\n' ∈ blank c ↔ c = '\n' := by
  unfold blank
  split
  · rename_i hc
    simp [hc]
  · rename_i hc
    simp [List.mem_replicate, hc]

/-- Blanks are as wide as the text in place of which they stand. -/
theorem width_flatMap_blank : ∀ s : List Char, width (s.flatMap blank) = width s
  | [] => rfl
  | c :: s => by
    rw [List.flatMap_cons, width_append, width_blank, width_flatMap_blank s, width_cons]

theorem isGap_of_mem_flatMap_blank {s : List Char} : ∀ c ∈ s.flatMap blank, isGap c = true := by
  intro c hc
  obtain ⟨d, -, hd⟩ := List.mem_flatMap.mp hc
  exact isGap_of_mem_blank hd

/-- Blanks have a line feed where the text has one. -/
theorem contains_flatMap_blank (s : List Char) :
    (s.flatMap blank).contains '\n' = s.contains '\n' := by
  rw [Bool.eq_iff_iff, List.contains_iff_mem, List.contains_iff_mem, List.mem_flatMap]
  simp [lineFeed_mem_blank]

/-! ## Overwritten comments -/

/-- Whether the byte at an offset belongs to a comment. -/
def covered (cs : List Comment) (k : Nat) : Bool :=
  cs.any fun m => decide (m.start ≤ k) && decide (k < m.stop)

/-- The text that starts at byte `pos`, with blanks in place of the comments. -/
def blankedFrom (cs : List Comment) : Nat → List Char → List Char
  | _, [] => []
  | pos, c :: s =>
    (if covered cs pos then blank c else [c]) ++ blankedFrom cs (pos + c.utf8Size) s

section Blanked

variable {cs : List Comment} {m : Comment} {pos : Nat} {s t : List Char}

theorem covered_iff : covered cs pos = true ↔ ∃ m ∈ cs, m.start ≤ pos ∧ pos < m.stop := by
  simp [covered]

theorem width_blankedFrom (cs : List Comment) : ∀ (pos : Nat) (s : List Char),
    width (blankedFrom cs pos s) = width s
  | _, [] => rfl
  | pos, c :: s => by
    rw [blankedFrom, width_append, width_blankedFrom cs _ s, width_cons]
    split
    · rw [width_blank]
    · rfl

theorem blankedFrom_append (cs : List Comment) : ∀ (pos : Nat) (s t : List Char),
    blankedFrom cs pos (s ++ t) = blankedFrom cs pos s ++ blankedFrom cs (pos + width s) t
  | _, [], _ => rfl
  | pos, c :: s, t => by
    rw [List.cons_append, blankedFrom, blankedFrom, blankedFrom_append cs _ s t, List.append_assoc,
      width_cons, Nat.add_assoc]

/-- What lies apart from all comments is kept. -/
theorem blankedFrom_of_apart (h : ∀ m ∈ cs, m.stop ≤ pos ∨ pos + width s ≤ m.start) :
    blankedFrom cs pos s = s := by
  induction s generalizing pos with
  | nil => rfl
  | cons c s ih =>
    have hc := Char.utf8Size_pos c
    have hcover : ¬covered cs pos = true := fun hcover => by
      obtain ⟨m, hm, hstart, hstop⟩ := covered_iff.mp hcover
      have := h m hm
      rw [width_cons] at this
      omega
    rw [blankedFrom, if_neg hcover, ih fun m hm => ?_]
    · rfl
    · have := h m hm
      rw [width_cons] at this
      omega

/-- What lies within a comment is overwritten. -/
theorem blankedFrom_of_mem (hm : m ∈ cs) (hstart : m.start ≤ pos) (hstop : pos + width s ≤ m.stop) :
    blankedFrom cs pos s = s.flatMap blank := by
  induction s generalizing pos with
  | nil => rfl
  | cons c s ih =>
    have hc := Char.utf8Size_pos c
    rw [width_cons] at hstop
    rw [blankedFrom, if_pos (covered_iff.mpr ⟨m, hm, hstart, by omega⟩), ih (by omega) (by omega),
      List.flatMap_cons]

/-- A comment that was passed makes no difference. -/
theorem blankedFrom_cons_of_le (h : m.stop ≤ pos) :
    blankedFrom (m :: cs) pos s = blankedFrom cs pos s := by
  induction s generalizing pos with
  | nil => rfl
  | cons c s ih =>
    have hcover : covered (m :: cs) pos = covered cs pos := by
      rw [covered, List.any_cons, decide_eq_false (show ¬pos < m.stop by omega), Bool.and_false,
        Bool.false_or]
      rfl
    rw [blankedFrom, blankedFrom, hcover, ih (by omega)]

/-- A comment at the start is overwritten, and what follows is left to the other comments. -/
theorem blankedFrom_comment (hstart : m.start = pos) (hstop : m.stop = pos + width s) :
    blankedFrom (m :: cs) pos (s ++ t) = s.flatMap blank ++ blankedFrom cs m.stop t := by
  rw [blankedFrom_append, blankedFrom_of_mem List.mem_cons_self hstart.le hstop.ge, ← hstop,
    blankedFrom_cons_of_le le_rfl]

end Blanked

/-! ## What follows a token -/

/-- Two texts are the same up to where the one breaks and the other has a blank, or both end. -/
def SameToBreak (s t : List Char) : Prop :=
  ∃ w x y, s = w ++ x ∧ t = w ++ y ∧ Breaks x ∧ ∀ c ∈ y.head?, isGap c = true

namespace SameToBreak

variable {s t : List Char}

theorem nil : SameToBreak [] [] := ⟨[], [], [], rfl, rfl, by simp [Breaks], by simp⟩

theorem append (w : List Char) (h : SameToBreak s t) : SameToBreak (w ++ s) (w ++ t) := by
  obtain ⟨v, x, y, rfl, rfl, hx, hy⟩ := h
  exact ⟨w ++ v, x, y, by rw [List.append_assoc], by rw [List.append_assoc], hx, hy⟩

/-- A comment and a blank in its place. -/
theorem slash (r : List Char) (ht : ∀ c ∈ t.head?, isGap c = true) : SameToBreak ('/' :: r) t :=
  ⟨[], '/' :: r, t, rfl, rfl, fun _ hc => Or.inr (Option.some.inj hc).symm, ht⟩

/-- Behind the same character, what is no blank comes from the first text. -/
theorem head? (h : SameToBreak s t) {d : Char} (hd : isGap d = false) (ht : t.head? = some d) :
    s.head? = some d := by
  obtain ⟨w, x, y, rfl, rfl, -, hy⟩ := h
  cases w with
  | nil =>
    rw [hy d ht] at hd
    cases hd
  | cons c w => exact ht

/-- The lexeme in front of both texts is the same. -/
theorem lexemeAt_eq (h : SameToBreak s t) {previous : Option Lexeme} {pos : Nat} {c : Char}
    {raw : List Char} {l : Lexeme}
    (hl : lexemeAt previous pos c (raw ++ s) = .ok (l, raw.length)) :
    lexemeAt previous pos c (raw ++ t) = .ok (l, raw.length) := by
  obtain ⟨w, x, y, rfl, rfl, hx, hy⟩ := h
  rw [← List.append_assoc] at hl ⊢
  exact lexemeAt_break hl (by simp) hx (fun c hc => Or.inl (hy c hc)) rfl pos

end SameToBreak

/-! ## The same tokens -/

theorem CutUp.le_start_of_mem_comments {pos : Nat} {broken : Bool} {previous : Option Lexeme}
    {s : List Char} {p : Pieces} (h : CutUp pos broken previous s p) :
    ∀ m ∈ p.comments, pos ≤ m.start := by
  induction h with
  | nil => exact fun m hm => absurd hm List.not_mem_nil
  | gap _ _ ih => exact fun m hm => Nat.le_of_succ_le (ih m hm)
  | line _ ih | block _ _ ih =>
    refine List.forall_mem_cons.mpr ⟨le_rfl, fun m hm => ?_⟩
    have := ih m hm
    omega
  | lexeme _ _ _ _ _ ih =>
    intro m hm
    have := ih m hm
    omega

/-- A comment in front of a text whose comments are overwritten. -/
theorem piecesFrom_blankedFrom_comment {cs : List Comment} {m : Comment} {pos : Nat} {broken : Bool}
    {previous : Option Lexeme} {body rest : List Char} {ts : List Token}
    (hslash : body.head? = some '/') (hstart : m.start = pos) (hstop : m.stop = pos + width body)
    (h : piecesFrom m.stop (broken || body.contains '\n') previous (blankedFrom cs m.stop rest) =
      .ok ⟨ts, []⟩) : SameToBreak (body ++ rest) (blankedFrom (m :: cs) pos (body ++ rest)) ∧
      piecesFrom pos broken previous (blankedFrom (m :: cs) pos (body ++ rest)) =
        .ok ⟨ts, []⟩ := by
  obtain ⟨b, rfl⟩ := List.head?_eq_some_iff.mp hslash
  rw [blankedFrom_comment hstart hstop]
  refine ⟨.slash (b ++ rest) fun c hc => ?_, ?_⟩
  · obtain rfl := Option.some.inj hc
    rfl
  · rw [piecesFrom_gaps isGap_of_mem_flatMap_blank, width_flatMap_blank, contains_flatMap_blank,
      ← hstop, h]

/-- A token in front of a text whose comments are overwritten. -/
theorem piecesFrom_blankedFrom_lexeme {cs : List Comment} {pos n : Nat} {broken : Bool}
    {previous : Option Lexeme} {c : Char} {r : List Char} {l : Lexeme} {ts : List Token}
    (hgap : ¬isGap c = true) (hline : ¬(c = '/' ∧ r.head? = some '/'))
    (hblock : ¬(c = '/' ∧ r.head? = some '*')) (hl : lexemeAt previous pos c r = .ok (l, n))
    (hlater : ∀ m ∈ cs, pos + c.utf8Size + width (r.take n) ≤ m.start)
    (hsame : SameToBreak (r.drop n)
      (blankedFrom cs (pos + c.utf8Size + width (r.take n)) (r.drop n)))
    (h : piecesFrom (pos + c.utf8Size + width (r.take n)) false (some l)
      (blankedFrom cs (pos + c.utf8Size + width (r.take n)) (r.drop n)) = .ok ⟨ts, []⟩) :
    SameToBreak (c :: r) (blankedFrom cs pos (c :: r)) ∧
      piecesFrom pos broken previous (blankedFrom cs pos (c :: r)) =
        .ok ⟨⟨l, pos, pos + c.utf8Size + width (r.take n), broken⟩ :: ts, []⟩ := by
  have hwidth : pos + width (c :: r.take n) = pos + c.utf8Size + width (r.take n) := by
    rw [width_cons, Nat.add_assoc]
  have hkept : blankedFrom cs pos (c :: r) = c :: (r.take n ++
      blankedFrom cs (pos + c.utf8Size + width (r.take n)) (r.drop n)) := by
    conv_lhs => rw [← List.take_append_drop n r, ← List.cons_append]
    rw [blankedFrom_append, hwidth, blankedFrom_of_apart fun m hm => Or.inr (by
      rw [hwidth]
      exact hlater m hm), List.cons_append]
  have hbehind := hsame.append (r.take n)
  rw [List.take_append_drop] at hbehind
  rw [hkept]
  refine ⟨hbehind.append [c], ?_⟩
  -- no comment starts here, because none did, and the lexeme ends where it did
  have hline' := fun hc : c = '/' ∧ _ => hline ⟨hc.1, hbehind.head? (by decide) hc.2⟩
  have hblock' := fun hc : c = '/' ∧ _ => hblock ⟨hc.1, hbehind.head? (by decide) hc.2⟩
  have hlen : (r.take n).length = n := List.length_take_of_le (length_of_lexemeAt hl)
  have hread : lexemeAt previous pos c (r.take n ++ r.drop n) = .ok (l, (r.take n).length) := by
    rw [List.take_append_drop, hlen, hl]
  rw [piecesFrom_lexeme hgap hline' hblock' (hsame.lexemeAt_eq hread), List.take_left,
    List.drop_left, h]
  rfl

/-- A text whose comments are overwritten is cut into the same tokens. -/
theorem piecesFrom_blankedFrom {pos : Nat} {broken : Bool} {previous : Option Lexeme}
    {s : List Char} {p : Pieces} (h : piecesFrom pos broken previous s = .ok p) :
    SameToBreak s (blankedFrom p.comments pos s) ∧
      piecesFrom pos broken previous (blankedFrom p.comments pos s) = .ok ⟨p.tokens, []⟩ := by
  have hcut := cutUp_of_piecesFrom h
  clear h
  induction hcut with
  | nil => exact ⟨.nil, by rw [blankedFrom, piecesFrom]⟩
  | @gap pos broken previous c r p hc hcut ih =>
    obtain ⟨hsame, hpieces⟩ := ih
    have hsize := utf8Size_of_isGap hc
    -- all comments are behind the blank
    have hkept : blankedFrom p.comments pos (c :: r) =
        [c] ++ blankedFrom p.comments (pos + 1) r := by
      rw [← List.singleton_append, blankedFrom_append, width_cons, width_nil, hsize,
        blankedFrom_of_apart fun m hm =>
          Or.inr (by simpa [hsize] using hcut.le_start_of_mem_comments m hm)]
    rw [hkept]
    refine ⟨hsame.append [c], ?_⟩
    rw [List.singleton_append, piecesFrom, if_pos hc, hpieces]
  | @line pos broken previous r p _ ih =>
    obtain ⟨-, hpieces⟩ := ih
    rw [drop_length_takeWhile] at hpieces
    have hbreak : ('/' :: '/' :: r.takeWhile (· ≠ '\n')).contains '\n' = false := by
      have htext : '\n' ∉ r.takeWhile (· ≠ '\n') := fun hm => by
        simpa using List.mem_takeWhile_imp hm
      simpa using htext
    have hs : '/' :: '/' :: r =
        ('/' :: '/' :: r.takeWhile (· ≠ '\n')) ++ r.dropWhile (· ≠ '\n') :=
      congrArg ('/' :: '/' :: ·) List.takeWhile_append_dropWhile.symm
    rw [hs]
    refine piecesFrom_blankedFrom_comment rfl rfl ?_ ?_
    · simp only [width_cons, show '/'.utf8Size = 1 from rfl]
      omega
    · rw [hbreak, Bool.or_false]
      exact hpieces
  | @block pos n broken previous r p hn _ ih =>
    have hbreak : ('/' :: '*' :: (r.take n ++ ['*', '/'])).contains '\n' =
        (r.take n).contains '\n' := by simp
    have hs : '/' :: '*' :: r = ('/' :: '*' :: (r.take n ++ ['*', '/'])) ++ r.drop (n + 2) := by
      rw [List.cons_append, List.cons_append, List.append_assoc]
      exact congrArg ('/' :: '*' :: ·) (eq_append_of_blockLength? hn)
    rw [hs]
    refine piecesFrom_blankedFrom_comment rfl rfl ?_ ?_
    · simp only [width_cons, width_append, width_nil, show '/'.utf8Size = 1 from rfl,
        show '*'.utf8Size = 1 from rfl]
      omega
    · rw [hbreak]
      exact ih.2
  | lexeme hgap hline hblock hl hcut ih =>
    exact piecesFrom_blankedFrom_lexeme hgap hline hblock hl hcut.le_start_of_mem_comments ih.1 ih.2

/-! ## Bytes -/

section Bytes

variable {cs : List Comment} {pos k : Nat} {c : Char} {s : List Char}

/-- No character of the text at byte `pos` goes across the offset `k`. -/
def Cut (pos : Nat) (s : List Char) (k : Nat) : Prop :=
  k ≤ pos ∨ ∃ pre post, s = pre ++ post ∧ k = pos + width pre

theorem Cut.cons (h : Cut pos (c :: s) k) :
    (k ≤ pos ∨ pos + c.utf8Size ≤ k) ∧ Cut (pos + c.utf8Size) s k := by
  rcases h with h | ⟨pre, post, hs, rfl⟩
  · exact ⟨Or.inl h, Or.inl (by omega)⟩
  · cases pre with
    | nil => exact ⟨Or.inl le_rfl, Or.inl (Nat.le_add_right _ _)⟩
    | cons d pre =>
      obtain ⟨rfl, rfl⟩ := List.cons.inj hs
      rw [width_cons, ← Nat.add_assoc]
      exact ⟨Or.inr (Nat.le_add_right _ _), Or.inr ⟨pre, post, rfl, rfl⟩⟩

/-- A comment takes all bytes of a character or none. -/
theorem covered_add (h : ∀ m ∈ cs, Cut pos (c :: s) m.start ∧ Cut pos (c :: s) m.stop)
    (hk : k < c.utf8Size) : covered cs (pos + k) = covered cs pos := by
  rw [Bool.eq_iff_iff, covered_iff, covered_iff]
  refine exists_congr fun m => and_congr_right fun hm => ?_
  have hstart := (h m hm).1.cons.1
  have hstop := (h m hm).2.cons.1
  omega

theorem bytesOf_blank (c : Char) :
    bytesOf (blank c) = (bytesOfChar c).map fun b => if b ≠ '\n' then ' ' else b := by
  unfold blank
  split
  · rename_i hc
    subst hc
    rfl
  · rename_i hc
    have hbytes : ∀ b ∈ bytesOfChar c, (if b ≠ '\n' then ' ' else b) = ' ' := by
      intro b hb
      by_cases hlt : c.toNat < 0x80
      · rw [Checked.bytesOfChar_of_lt hlt, List.mem_singleton] at hb
        rw [hb, if_pos hc]
      · have hle := Checked.le_of_mem_bytesOfChar (Nat.not_lt.mp hlt) hb
        refine if_pos ?_
        rintro rfl
        exact absurd hle (by decide)
    have hspaces : ∀ n, bytesOf (List.replicate n ' ') = List.replicate n ' ' := fun n => by
      induction n with
      | zero => rfl
      | succ n ih => rw [List.replicate_succ, bytesOf_cons, ih]; rfl
    rw [List.map_congr_left hbytes, List.map_const', Checked.length_bytesOfChar, hspaces]

/-- Byte for byte, what belongs to a comment and is no line feed becomes a space. -/
theorem bytesOf_blankedFrom (h : ∀ m ∈ cs, Cut pos s m.start ∧ Cut pos s m.stop) :
    bytesOf (blankedFrom cs pos s) =
      (bytesOf s).mapIdx fun k b => if covered cs (pos + k) ∧ b ≠ '\n' then ' ' else b := by
  induction s generalizing pos with
  | nil => rfl
  | cons c s ih =>
    have hchar : bytesOf (if covered cs pos then blank c else [c]) =
        (bytesOfChar c).mapIdx fun k b => if covered cs (pos + k) ∧ b ≠ '\n' then ' ' else b := by
      refine Eq.trans ?_ (List.ext_getElem (by rw [List.length_map, List.length_mapIdx])
        fun k hk _ => ?_ : (bytesOfChar c).map
          (fun b => if covered cs pos ∧ b ≠ '\n' then ' ' else b) = _)
      · split
        · rename_i hcover
          simpa [hcover] using bytesOf_blank c
        · rename_i hcover
          simp [hcover, bytesOf]
      · rw [List.length_map, Checked.length_bytesOfChar] at hk
        rw [List.getElem_map, List.getElem_mapIdx, covered_add h hk]
    rw [blankedFrom, bytesOf_append, bytesOf_cons, List.mapIdx_append, hchar,
      ih fun m hm => ⟨(h m hm).1.cons.2, (h m hm).2.cons.2⟩, Checked.length_bytesOfChar]
    congr 2
    funext k b
    rw [Nat.add_assoc, Nat.add_comm k]

end Bytes

/-! ## Texts -/

section Tokenize

variable {s : List Char} {l : Lexed}

theorem cut_of_mem_comments (h : tokenize s = .ok l) {m : Comment} (hm : m ∈ l.comments) :
    Cut 0 s m.start ∧ Cut 0 s m.stop := by
  obtain ⟨ps, hl, -, hcomments⟩ := laid_of_tokenize h
  rw [hcomments] at hm
  obtain ⟨q, hq, hqm⟩ := List.mem_filterMap.mp hm
  obtain rfl := eq_comment_of_comment? hqm
  obtain ⟨pre, body, post, hs, hstart, hstop, -⟩ := hl.slice _ hq
  refine ⟨Or.inr ⟨pre, body ++ post, hs, hstart⟩, Or.inr ⟨pre ++ body, post, ?_, ?_⟩⟩
  · rw [hs, List.append_assoc]
  · rw [width_append, ← Nat.add_assoc]
    exact hstart ▸ hstop

/-- The text of a token is kept. -/
theorem stretch?_blankedFrom (h : tokenize s = .ok l) {t : Token} (ht : t ∈ l.tokens) :
    ∃ text, stretch? s t.start t.stop = some text ∧
      stretch? (blankedFrom l.comments 0 s) t.start t.stop = some text := by
  obtain ⟨pre, body, post, rfl, hstart, hstop, -⟩ := slice_of_mem_tokens h ht
  have hbody : blankedFrom l.comments (0 + width pre) body = body := by
    refine blankedFrom_of_apart fun m hm => ?_
    have := apart_of_tokenize h ht hm
    omega
  refine ⟨body, by rw [hstart, hstop, stretch?_width], ?_⟩
  have hkept := stretch?_width (blankedFrom l.comments 0 pre) body
    (blankedFrom l.comments (0 + width pre + width body) post)
  rw [width_blankedFrom] at hkept
  rw [blankedFrom_append, blankedFrom_append, hbody, hstart, hstop, hkept]

/-- If the comments of a text are overwritten with spaces up to their line feeds, it is cut into
the same tokens as before, and has no comments. -/
theorem tokenize_blankedFrom (h : tokenize s = .ok l) :
    bytesOf (blankedFrom l.comments 0 s) = ((bytesOf s).mapIdx fun k b =>
        if (∃ m ∈ l.comments, m.start ≤ k ∧ k < m.stop) ∧ b ≠ '\n' then ' ' else b) ∧
      tokenize (blankedFrom l.comments 0 s) = .ok { l with comments := [] } ∧
      ∀ t ∈ l.tokens, ∃ text, stretch? s t.start t.stop = some text ∧
        stretch? (blankedFrom l.comments 0 s) t.start t.stop = some text := by
  refine ⟨?_, ?_, fun t ht => stretch?_blankedFrom h ht⟩
  · rw [bytesOf_blankedFrom fun m hm => cut_of_mem_comments h hm]
    simp only [covered_iff, Nat.zero_add]
  · unfold tokenize at h
    split at h
    · cases h
    rename_i p hp
    cases h
    rw [tokenize, (piecesFrom_blankedFrom hp).2, width_blankedFrom]

/-- A text whose comments stand between operators that would be one without them, in front of a
regular expression, and across a line break. -/
def touchingText : List Char := "a+/**/+b/*\u00e9\n*/=/[/*]/g//c".toList

theorem tokenize_blankedFrom_touchingText : ∃ l, tokenize touchingText = .ok l ∧
    l.tokens.map (fun t => (t.lexeme, t.afterBreak)) = [(.word "a", false), (.mark .plus, false),
      (.mark .plus, false), (.word "b", false), (.mark .assign, true), (.regex, false)] ∧
    blankedFrom l.comments 0 touchingText = "a+    +b    \n  =/[/*]/g   ".toList ∧
    bytesOf (blankedFrom l.comments 0 touchingText) = ((bytesOf touchingText).mapIdx fun k b =>
        if (∃ m ∈ l.comments, m.start ≤ k ∧ k < m.stop) ∧ b ≠ '\n' then ' ' else b) ∧
      tokenize (blankedFrom l.comments 0 touchingText) = .ok { l with comments := [] } ∧
      ∀ t ∈ l.tokens, ∃ text, stretch? touchingText t.start t.stop = some text ∧
        stretch? (blankedFrom l.comments 0 touchingText) t.start t.stop = some text := by
  have h : tokenize touchingText = .ok ⟨[⟨.word "a", 0, 1, false⟩, ⟨.mark .plus, 1, 2, false⟩,
      ⟨.mark .plus, 6, 7, false⟩, ⟨.word "b", 7, 8, false⟩, ⟨.mark .assign, 15, 16, true⟩,
      ⟨.regex, 16, 23, false⟩], [⟨true, "", 2, 6⟩, ⟨true, "\u00e9\n", 8, 15⟩,
      ⟨false, "c", 23, 26⟩], 26⟩ := by cbv
  exact ⟨_, h, rfl, by cbv, tokenize_blankedFrom h⟩

end Tokenize

end CallContract.Source
