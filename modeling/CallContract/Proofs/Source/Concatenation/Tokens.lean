import CallContract.Proofs.Source.Lookahead

/-!
# The tokens of two texts

A text that can be cut up is cut up the same way with a new line behind it and wherever it
stands, but for offsets, and for its first token, which may be behind a line break there
(`piecesFrom_append`). What a slash means at the start of a text is what it means behind a
semicolon. So a text behind a semicolon and a new line is cut up as it is by itself, and the
tokens and comments of both texts are those of the whole (`tokenize_append`).
-/

namespace CallContract.Source

/-! ## Moved tokens -/

/-- The token `k` bytes further on. -/
def Token.moved (k : Nat) (t : Token) : Token := { t with start := k + t.start, stop := k + t.stop }

/-- The comment `k` bytes further on. -/
def Comment.moved (k : Nat) (c : Comment) : Comment :=
  { c with start := k + c.start, stop := k + c.stop }

/-- The token behind one more line break if `broken`. -/
def Token.behind (broken : Bool) (t : Token) : Token :=
  { t with afterBreak := t.afterBreak || broken }

@[simp] theorem Token.lexeme_moved (k : Nat) (t : Token) : (t.moved k).lexeme = t.lexeme := rfl

@[simp] theorem Token.lexeme_behind (b : Bool) (t : Token) : (t.behind b).lexeme = t.lexeme := rfl

@[simp] theorem Token.behind_false (t : Token) : t.behind false = t := by
  simp only [behind, Bool.or_false]

/-- Tokens `k` bytes further on, behind a line break if `broken`. -/
def moveAll (k : Nat) (broken : Bool) : List Token → List Token
  | [] => []
  | t :: ts => (t.moved k).behind broken :: ts.map (Token.moved k)

@[simp] theorem moveAll_false (k : Nat) (ts : List Token) :
    moveAll k false ts = ts.map (Token.moved k) := by
  cases ts with
  | nil => rfl
  | cons t ts => simp [moveAll]

@[simp] theorem Token.moved_zero : Token.moved 0 = id := by
  funext t
  simp [Token.moved]

@[simp] theorem Comment.moved_zero : Comment.moved 0 = id := by
  funext c
  simp [Comment.moved]

namespace Pieces

/-- Pieces `k` bytes further on, behind a line break if `broken`. -/
def moved (k : Nat) (broken : Bool) (p : Pieces) : Pieces :=
  ⟨moveAll k broken p.tokens, p.comments.map (Comment.moved k)⟩

@[simp] theorem moved_zero (p : Pieces) : p.moved 0 false = p := by
  simp [moved]

/-- Pieces followed by others. -/
def append (p q : Pieces) : Pieces := ⟨p.tokens ++ q.tokens, p.comments ++ q.comments⟩

/-- The last lexeme of pieces in front of which `previous` is the last. -/
def last? (previous : Option Lexeme) (p : Pieces) : Option Lexeme :=
  (p.tokens.getLast?.map Token.lexeme).or previous

theorem last?_cons (previous : Option Lexeme) (t : Token) (ts : List Token) (cs : List Comment) :
    last? previous ⟨t :: ts, cs⟩ = last? (some t.lexeme) ⟨ts, cs⟩ := by
  rw [last?, last?, List.getLast?_cons]
  cases ts.getLast? <;> rfl

end Pieces

theorem map_map_eq {ε α β γ : Type} (f : α → β) (g : β → γ) (x : Except ε α) :
    (x.map f).map g = x.map (g ∘ f) := by
  cases x <;> rfl

/-! ## One piece in front -/

/-- Blanks in front. -/
theorem piecesFrom_gaps : ∀ {g : List Char}, (∀ c ∈ g, isGap c = true) → ∀ (pos : Nat)
    (broken : Bool) (previous : Option Lexeme) (s : List Char),
      piecesFrom pos broken previous (g ++ s) =
        piecesFrom (pos + width g) (broken || g.contains '\n') previous s
  | [], _, _, _, _, _ => by simp
  | c :: g, h, pos, broken, previous, s => by
    obtain ⟨hc, hg⟩ := List.forall_mem_cons.mp h
    have hbroken : (broken || (c :: g).contains '\n') =
        (broken || decide (c = '\n') || g.contains '\n') := by
      rw [List.contains_cons, Bool.or_assoc, Bool.beq_comm]
      rfl
    rw [List.cons_append, piecesFrom, if_pos hc, piecesFrom_gaps hg, width_cons,
      utf8Size_of_isGap hc, Nat.add_assoc, hbroken]

/-- A line comment in front. -/
theorem piecesFrom_line (pos : Nat) (broken : Bool) (previous : Option Lexeme) (r : List Char) :
    piecesFrom pos broken previous ('/' :: '/' :: r) =
      (piecesFrom (pos + 2 + width (r.takeWhile (· ≠ '\n'))) broken previous
        (r.drop (r.takeWhile (· ≠ '\n')).length)).map fun p =>
          { p with comments := ⟨false, String.ofList (r.takeWhile (· ≠ '\n')), pos,
            pos + 2 + width (r.takeWhile (· ≠ '\n'))⟩ :: p.comments } := by
  rw [piecesFrom, if_neg (by decide), if_pos ⟨rfl, rfl⟩]
  simp only [Nat.add_comm 1, List.drop_succ_cons, List.drop_zero]
  cases piecesFrom (pos + 2 + width (r.takeWhile (· ≠ '\n'))) broken previous
    (r.drop (r.takeWhile (· ≠ '\n')).length) <;> rfl

theorem width_line (r : List Char) : width ('/' :: '/' :: r) =
    2 + width (r.takeWhile (· ≠ '\n')) + width (r.drop (r.takeWhile (· ≠ '\n')).length) := by
  rw [drop_length_takeWhile, Nat.add_assoc, ← width_append, List.takeWhile_append_dropWhile,
    width_cons, width_cons, ← Nat.add_assoc]
  rfl

/-- A block comment in front. -/
theorem piecesFrom_block (pos : Nat) (broken : Bool) (previous : Option Lexeme) {r : List Char}
    {n : Nat} (hn : blockLength? r = some n) :
    piecesFrom pos broken previous ('/' :: '*' :: r) =
      (piecesFrom (pos + 4 + width (r.take n)) (broken || (r.take n).contains '\n') previous
        (r.drop (n + 2))).map fun p =>
          { p with comments := ⟨true, String.ofList (r.take n), pos,
            pos + 4 + width (r.take n)⟩ :: p.comments } := by
  rw [piecesFrom, if_neg (by decide), if_neg (by simp), if_pos ⟨rfl, rfl⟩]
  simp only [List.drop_succ_cons, List.drop_zero, hn]
  cases piecesFrom (pos + 4 + width (r.take n)) (broken || (r.take n).contains '\n') previous
    (r.drop (n + 2)) <;> rfl

theorem width_block {r : List Char} {n : Nat} (hn : blockLength? r = some n) :
    width ('/' :: '*' :: r) = 4 + width (r.take n) + width (r.drop (n + 2)) := by
  have hr := congrArg width (eq_append_of_blockLength? hn)
  simp only [width_append, width_cons, show '*'.utf8Size = 1 from rfl,
    show '/'.utf8Size = 1 from rfl] at hr ⊢
  omega

/-- A token in front. -/
theorem piecesFrom_lexeme {pos n : Nat} {broken : Bool} {previous : Option Lexeme} {c : Char}
    {r : List Char} {l : Lexeme} (hgap : ¬isGap c = true) (hline : ¬(c = '/' ∧ r.head? = some '/'))
    (hblock : ¬(c = '/' ∧ r.head? = some '*')) (hl : lexemeAt previous pos c r = .ok (l, n)) :
    piecesFrom pos broken previous (c :: r) =
      (piecesFrom (pos + c.utf8Size + width (r.take n)) false (some l) (r.drop n)).map fun p =>
        { p with tokens := ⟨l, pos, pos + c.utf8Size + width (r.take n), broken⟩ :: p.tokens } := by
  rw [piecesFrom, if_neg hgap, if_neg hline, if_neg hblock, hl]
  simp only
  cases piecesFrom (pos + c.utf8Size + width (r.take n)) false (some l) (r.drop n) <;> rfl

/-! ## Two texts -/

/-- Nothing, or a new line. -/
def NewLine (u : List Char) : Prop := ∀ c ∈ u.head?, c = '\n'

namespace NewLine

variable {u : List Char}

theorem breaks (hu : NewLine u) : Breaks u := fun c hc => by
  rw [hu c hc]
  exact Or.inl rfl

theorem not_of (hu : NewLine u) {p : Char → Bool} (hp : p '\n' = false) :
    ∀ c ∈ u.head?, ¬p c = true := by
  intro c hc
  rw [hu c hc, hp]
  exact Bool.false_ne_true

/-- Only a new line comes first where there was nothing. -/
theorem head?_of_append (hu : NewLine u) {s : List Char} {d : Char} (hd : d ≠ '\n')
    (h : (s ++ u).head? = some d) : s.head? = some d := by
  cases s with
  | nil => exact absurd (hu d h) hd
  | cons c s => exact h

end NewLine

/-- A lexeme is the same with a new line behind the text, wherever it stands. -/
theorem lexemeAt_append {previous previous' : Option Lexeme} {pos n : Nat} {c : Char}
    {r u : List Char} {l : Lexeme} (h : lexemeAt previous pos c r = .ok (l, n))
    (hp : regexMayFollow previous' = regexMayFollow previous) (hu : NewLine u) (pos' : Nat) :
    n ≤ r.length ∧ lexemeAt previous' pos' c (r ++ u) = .ok (l, n) := by
  have hlen := length_of_lexemeAt h
  have hend : Breaks [] := fun _ hc => by cases hc
  rw [← List.append_nil r] at h
  exact ⟨hlen, lexemeAt_break h hlen hend hu.breaks hp pos'⟩

/-- A text that is cut up is cut up the same way elsewhere and with a new line behind it. -/
theorem piecesFrom_append {pos : Nat} {broken : Bool} {previous : Option Lexeme} {s u : List Char}
    {p : Pieces} (h : piecesFrom pos broken previous s = .ok p) (hu : NewLine u) (k : Nat)
    (extra : Bool) (previous' : Option Lexeme)
    (hp : regexMayFollow previous' = regexMayFollow previous) :
    ∃ b, piecesFrom (k + pos) (broken || extra) previous' (s ++ u) =
      (piecesFrom (k + (pos + width s)) b (p.last? previous') u).map (p.moved k extra).append := by
  have hcut := cutUp_of_piecesFrom h
  clear h
  induction hcut generalizing extra previous' with
  | @nil pos broken previous =>
    refine ⟨broken || extra, ?_⟩
    change piecesFrom (k + pos) (broken || extra) previous' u =
      (piecesFrom (k + pos) (broken || extra) previous' u).map id
    rw [Except.map_id]
    rfl
  | @gap pos broken previous c r p hc _ ih =>
    obtain ⟨b, hb⟩ := ih extra previous' hp
    refine ⟨b, ?_⟩
    rw [width_cons, utf8Size_of_isGap hc, ← Nat.add_assoc pos, ← hb, List.cons_append, piecesFrom,
      if_pos hc, Nat.add_assoc, Bool.or_right_comm]
  | @line pos broken previous r p _ ih =>
    obtain ⟨b, hb⟩ := ih extra previous' hp
    have htext : (r ++ u).takeWhile (· ≠ '\n') = r.takeWhile (· ≠ '\n') :=
      takeWhile_append_of_head (hu.not_of (by decide))
    have hlen : (r.takeWhile (· ≠ '\n')).length ≤ r.length := (List.takeWhile_sublist _).length_le
    refine ⟨b, ?_⟩
    rw [List.cons_append, List.cons_append, piecesFrom_line, htext,
      List.drop_append_of_le_length hlen, width_line]
    simp only [Nat.add_assoc] at hb ⊢
    rw [hb, map_map_eq]
    rfl
  | @block pos n broken previous r p hn _ ih =>
    obtain ⟨b, hb⟩ := ih extra previous' hp
    obtain ⟨hlen, hn'⟩ := blockLength?_append hn u
    have htext : (r ++ u).take n = r.take n := List.take_append_of_le_length (by omega)
    refine ⟨b, ?_⟩
    rw [List.cons_append, List.cons_append, piecesFrom_block _ _ _ hn', htext, Bool.or_right_comm,
      List.drop_append_of_le_length hlen, width_block hn]
    simp only [Nat.add_assoc] at hb ⊢
    rw [hb, map_map_eq]
    rfl
  | @lexeme pos n broken previous c r l p hgap hline hblock hl _ ih =>
    -- behind this token nothing is left of the line break in front of the text
    obtain ⟨hlen, hl⟩ := lexemeAt_append hl hp hu (k + pos)
    obtain ⟨b, hb⟩ := ih false (some l) rfl
    have hend : width (c :: r) = c.utf8Size + (width (r.take n) + width (r.drop n)) := by
      rw [width_cons, ← width_append, List.take_append_drop]
    have hline' : ¬(c = '/' ∧ (r ++ u).head? = some '/') := fun hc =>
      hline ⟨hc.1, hu.head?_of_append (by decide) hc.2⟩
    have hblock' : ¬(c = '/' ∧ (r ++ u).head? = some '*') := fun hc =>
      hblock ⟨hc.1, hu.head?_of_append (by decide) hc.2⟩
    refine ⟨b, ?_⟩
    rw [List.cons_append, piecesFrom_lexeme hgap hline' hblock' hl,
      List.take_append_of_le_length hlen, List.drop_append_of_le_length hlen, hend]
    simp only [Nat.add_assoc, Bool.or_self] at hb ⊢
    rw [hb, map_map_eq, Pieces.last?_cons]
    congr 1
    funext q
    simp only [Function.comp_apply, Pieces.append, Pieces.moved, moveAll_false]
    rfl

/-- Behind a semicolon and a new line a text is cut up as it is by itself. -/
theorem tokenize_append {a b : List Char} {la lb : Lexed} (ha : tokenize a = .ok la)
    (hb : tokenize b = .ok lb)
    (hlast : la.tokens.getLast?.map Token.lexeme = some (.mark .semicolon)) :
    tokenize (a ++ '\n' :: b) = .ok ⟨la.tokens ++ moveAll (width a + 1) true lb.tokens,
      la.comments ++ lb.comments.map (Comment.moved (width a + 1)), width a + 1 + width b⟩ := by
  unfold tokenize at ha hb ⊢
  split at ha
  · cases ha
  rename_i pa hpa
  cases ha
  split at hb
  · cases hb
  rename_i pb hpb
  cases hb
  have hu : NewLine ('\n' :: b) := fun c hc => (Option.some.inj hc).symm
  obtain ⟨broken, hfirst⟩ := piecesFrom_append hpa hu 0 false none rfl
  have hprevious : regexMayFollow (pa.last? none) = regexMayFollow none := by
    rw [Pieces.last?, hlast]
    rfl
  obtain ⟨broken', hsecond⟩ := piecesFrom_append hpb (u := []) (fun c hc => by cases hc)
    (width a + 1) true (pa.last? none) hprevious
  have hempty : ∀ (pos : Nat) (broken : Bool) (previous : Option Lexeme),
      piecesFrom pos broken previous [] = .ok ⟨[], []⟩ := fun _ _ _ => by rw [piecesFrom]
  rw [List.append_nil, hempty, Bool.false_or, Nat.add_zero] at hsecond
  have hbreak : piecesFrom (0 + (0 + width a)) broken (pa.last? none) ('\n' :: b) =
      piecesFrom (width a + 1) true (pa.last? none) b := by
    rw [piecesFrom, if_pos (by decide), Nat.zero_add, Nat.zero_add]
    simp
  rw [hbreak, hsecond] at hfirst
  rw [Nat.zero_add, Bool.false_or] at hfirst
  have hwidth : width (a ++ '\n' :: b) = width a + 1 + width b := by
    rw [width_append, width_cons, Nat.add_assoc]
    rfl
  rw [hfirst, hwidth]
  simp [Except.map, Pieces.append, Pieces.moved]

end CallContract.Source
