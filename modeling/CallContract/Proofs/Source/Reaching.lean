import CallContract.Proofs.Quoted
import CallContract.Proofs.Source.Concatenation.Tokens
import Mathlib

/-!
# What the lexer comes to

The scanners of the lexer call one another : a text is scanned lexeme by lexeme, a template goes on
with its substitutions, and a substitution with the literals and templates inside it. A `Scan` is
one such call, and `Scan.Step` says which calls come next : those that are made when all before them
went well.

A scan fails as the next one does (`Scan.Step.fails`), so a text is refused for every literal that
the lexer reaches in it and cannot read (`Reaches.tokenize_eq`). And nothing else is refused like a
literal : whenever a text is refused for a string, the lexer reaches a literal there
(`tokenize_eq_error_iff`).
-/

namespace CallContract.Source

/-! ## Strings -/

/-- The causes that a string literal is refused for. -/
def Cause.IsOfString (cause : Cause) : Prop := cause = openString ∨ cause = badEscape

theorem isOfString_of_stringBody {q : Char} {s : List Char} {cause : Cause}
    (h : stringBody q s = .error cause) : cause.IsOfString := by
  fun_induction stringBody q s with
  | case1 | case3 | case4 => exact Or.inl (Except.error.inj h).symm
  | case2 | case7 | case9 => cases h
  | case5 => exact Or.inr (Except.error.inj h).symm
  | case6 =>
    rename_i hbody _ _ ih
    exact ih (hbody.trans h)
  | case8 =>
    rename_i hbody ih
    exact ih (hbody.trans h)

/-! ## Calls -/

/-- A call of a scanner. All have what is left of a text and the byte where it starts; a
literal is at its opening quote, with what follows it. -/
inductive Scan where
  | text (pos : Nat) (broken : Bool) (previous : Option Lexeme) (s : List Char)
  | template (start pos : Nat) (s : List Char)
  | substitution (start pos depth : Nat) (s : List Char)
  | literal (pos : Nat) (quote : Char) (s : List Char)

namespace Scan

/-- A scan that ends with an error. -/
def Fails : Scan → Error → Prop
  | text pos broken previous s, e => piecesFrom pos broken previous s = .error e
  | template start pos s, e => templateBody start pos s = .error e
  | substitution start pos depth s, e => Source.substitution start pos depth s = .error e
  | literal pos quote s, e => ∃ cause, stringBody quote s = .error cause ∧ e = ⟨pos, cause⟩

/-- The calls that a scan makes next. -/
inductive Step : Scan → Scan → Prop
  | gap {pos : Nat} {broken : Bool} {previous : Option Lexeme} {c : Char} {r : List Char} :
    isGap c = true →
      Step (text pos broken previous (c :: r)) (text (pos + 1) (broken || c = '\n') previous r)
  | line {pos : Nat} {broken : Bool} {previous : Option Lexeme} {r : List Char} :
    Step (text pos broken previous ('/' :: '/' :: r))
      (text (pos + 2 + width (r.takeWhile (· ≠ '\n'))) broken previous
        (r.drop (r.takeWhile (· ≠ '\n')).length))
  | block {pos n : Nat} {broken : Bool} {previous : Option Lexeme} {r : List Char} :
    blockLength? r = some n →
      Step (text pos broken previous ('/' :: '*' :: r))
        (text (pos + 4 + width (r.take n)) (broken || (r.take n).contains '\n') previous
          (r.drop (n + 2)))
  | lexeme {pos n : Nat} {broken : Bool} {previous : Option Lexeme} {l : Lexeme} {c : Char}
    {r : List Char} : ¬isGap c = true → ¬(c = '/' ∧ r.head? = some '/') →
      ¬(c = '/' ∧ r.head? = some '*') → lexemeAt previous pos c r = .ok (l, n) →
        Step (text pos broken previous (c :: r))
          (text (pos + c.utf8Size + width (r.take n)) false (some l) (r.drop n))
  | quoted {pos : Nat} {broken : Bool} {previous : Option Lexeme} {q : Char} {r : List Char} :
    IsQuote q → Step (text pos broken previous (q :: r)) (literal pos q r)
  | backtick {pos : Nat} {broken : Bool} {previous : Option Lexeme} {r : List Char} :
    Step (text pos broken previous ('\x60' :: r)) (template pos (pos + 1) r)
  | escaped {start pos : Nat} {r : List Char} :
    Step (template start pos ('\\' :: r))
      (template start (pos + width (('\\' :: r).take 2)) (r.drop 1))
  | enter {start pos : Nat} {r : List Char} :
    Step (template start pos ('$' :: '\x7b' :: r)) (substitution (pos + 2) (pos + 2) 0 r)
  | leave {start pos n : Nat} {r : List Char} :
    Source.substitution (pos + 2) (pos + 2) 0 r = .ok n →
      Step (template start pos ('$' :: '\x7b' :: r))
        (template start (pos + 2 + width (r.take n)) (r.drop n))
  | plain {start pos : Nat} {c : Char} {r : List Char} : c ≠ '\x60' → c ≠ '\\' →
    (∀ t, c = '$' → r ≠ '\x7b' :: t) →
      Step (template start pos (c :: r)) (template start (pos + c.utf8Size) r)
  | close {start pos depth : Nat} {r : List Char} :
    Step (substitution start pos (depth + 1) ('\x7d' :: r)) (substitution start (pos + 1) depth r)
  | inner {start pos depth : Nat} {q : Char} {r : List Char} : IsQuote q →
    Step (substitution start pos depth (q :: r)) (literal pos q r)
  | behindInner {start pos depth n : Nat} {q : Char} {r v : List Char} : IsQuote q →
    stringBody q r = .ok (v, n) → Step (substitution start pos depth (q :: r))
      (substitution start (pos + 1 + width (r.take n)) depth (r.drop n))
  | nested {start pos depth : Nat} {r : List Char} :
    Step (substitution start pos depth ('\x60' :: r)) (template pos (pos + 1) r)
  | behindNested {start pos depth n : Nat} {r : List Char} {body : Option (List Char)} :
    templateBody pos (pos + 1) r = .ok (body, n) → Step (substitution start pos depth ('\x60' :: r))
      (substitution start (pos + 1 + width (r.take n)) depth (r.drop n))
  | other {start pos depth : Nat} {c : Char} {r : List Char} : c ≠ '\x7d' → ¬IsQuote c →
    c ≠ '\x60' → Step (substitution start pos depth (c :: r))
      (substitution start (pos + c.utf8Size) (if c = '\x7b' then depth + 1 else depth) r)

variable {a b : Scan} {e : Error}

theorem ne_of_isQuote {q : Char} (hq : IsQuote q) : isGap q = false ∧ q ≠ '/' ∧ q ≠ '\x7d' := by
  rcases hq with rfl | rfl <;> decide

theorem backtick_not_brace_not_quote : '\x60' ≠ '\x7d' ∧ ¬('\x60' = '"' ∨ '\x60' = '\x27') := by
  decide

/-- A scan fails as the next one does. -/
theorem Step.fails (h : Step a b) (hb : b.Fails e) : a.Fails e := by
  cases h with
  | gap hc =>
    rw [Fails, piecesFrom, if_pos hc]
    exact hb
  | line =>
    rw [Fails] at hb
    rw [Fails, piecesFrom_line, hb]
    rfl
  | block hn =>
    rw [Fails] at hb
    rw [Fails, piecesFrom_block _ _ _ hn, hb]
    rfl
  | lexeme hgap hline hblock hl =>
    rw [Fails] at hb
    rw [Fails, piecesFrom_lexeme hgap hline hblock hl, hb]
    rfl
  | @quoted pos broken previous q r hq =>
    obtain ⟨cause, hbody, rfl⟩ := hb
    obtain ⟨hgap, hslash, -⟩ := ne_of_isQuote hq
    have hquote : q = '"' ∨ q = '\x27' := hq
    have hread : lexemeAt previous pos q r = .error ⟨pos, cause⟩ := by
      rw [lexemeAt, if_pos hquote, hbody]
    rw [Fails, piecesFrom, if_neg (by simp [hgap]), if_neg fun h => hslash h.1,
      if_neg fun h => hslash h.1, hread]
  | @backtick pos broken previous r =>
    rw [Fails] at hb
    have hread : lexemeAt previous pos '\x60' r = .error e := by
      rw [lexemeAt, if_neg (by decide), if_pos rfl, hb]
    rw [Fails, piecesFrom, if_neg (by decide), if_neg (by simp), if_neg (by simp), hread]
  | escaped =>
    rw [Fails] at hb
    rw [Fails, templateBody, hb]
  | enter =>
    rw [Fails] at hb
    rw [Fails, templateBody, hb]
  | leave hn =>
    rw [Fails] at hb
    rw [Fails, templateBody, hn]
    simp only [hb]
  | plain hquote hback hopen =>
    rw [Fails] at hb
    rw [Fails, templateBody.eq_5 _ _ _ _ hquote hback hopen, hb]
  | close =>
    rw [Fails] at hb
    rw [Fails, Source.substitution, if_pos rfl]
    simp only [hb]
  | inner hq =>
    obtain ⟨cause, hbody, rfl⟩ := hb
    have hbrace := (ne_of_isQuote hq).2.2
    rw [IsQuote] at hq
    rw [Fails, Source.substitution.eq_def]
    simp only [if_neg hbrace, if_pos hq, hbody]
  | behindInner hq hbody =>
    rw [Fails] at hb
    have hbrace := (ne_of_isQuote hq).2.2
    rw [IsQuote] at hq
    rw [Fails, Source.substitution.eq_def]
    simp only [if_neg hbrace, if_pos hq, hbody, hb]
  | nested =>
    rw [Fails] at hb
    rw [Fails, Source.substitution.eq_def]
    obtain ⟨hbrace, hquote⟩ := backtick_not_brace_not_quote
    simp only [if_neg hbrace, if_neg hquote, if_true, hb]
  | behindNested hbody =>
    rw [Fails] at hb
    rw [Fails, Source.substitution.eq_def]
    obtain ⟨hbrace, hquote⟩ := backtick_not_brace_not_quote
    simp only [if_neg hbrace, if_neg hquote, if_true, hbody, hb]
  | other hbrace hquote htemplate =>
    rw [Fails] at hb
    rw [IsQuote] at hquote
    rw [Fails, Source.substitution.eq_def]
    simp only [if_neg hbrace, if_neg hquote, if_neg htemplate, hb]

/-! ## Where the calls are -/

/-- The byte that a scan is at. -/
def pos : Scan → Nat
  | text pos .. | template _ pos _ | substitution _ pos .. | literal pos .. => pos

/-- What is left of the text, the quote of a literal included. -/
def left : Scan → List Char
  | text _ _ _ s | template _ _ s | substitution _ _ _ s => s
  | literal _ quote s => quote :: s

/-- `a.Before b` : the scan `b` is behind some of what is left at `a`. -/
def Before (a b : Scan) : Prop := ∃ front, a.left = front ++ b.left ∧ b.pos = a.pos + width front

theorem Before.refl (a : Scan) : a.Before a := ⟨[], rfl, rfl⟩

theorem Before.trans {c : Scan} (hab : a.Before b) (hbc : b.Before c) : a.Before c := by
  obtain ⟨front, hleft, hpos⟩ := hab
  obtain ⟨next, hleft', hpos'⟩ := hbc
  refine ⟨front ++ next, by rw [hleft, hleft', List.append_assoc], ?_⟩
  rw [hpos', hpos, width_append, Nat.add_assoc]

theorem Step.before (h : Step a b) : a.Before b := by
  cases h with
  | @gap _ _ _ c _ hc =>
    exact ⟨[c], rfl, by simp only [pos, width_cons, width_nil, utf8Size_of_isGap hc]⟩
  | @line _ _ _ r =>
    refine ⟨'/' :: '/' :: r.takeWhile (· ≠ '\n'), ?_, ?_⟩
    · simp only [left, drop_length_takeWhile, List.cons_append, List.takeWhile_append_dropWhile]
    · simp only [pos, width_cons, show '/'.utf8Size = 1 from rfl]
      omega
  | @block _ n _ _ r hn =>
    refine ⟨'/' :: '*' :: (r.take n ++ ['*', '/']), ?_, ?_⟩
    · simpa [left] using eq_append_of_blockLength? hn
    · simp only [pos, width_cons, width_append, width_nil, show '/'.utf8Size = 1 from rfl,
        show '*'.utf8Size = 1 from rfl]
      omega
  | @lexeme _ n _ _ _ c r =>
    refine ⟨c :: r.take n, by simp only [left, List.cons_append, List.take_append_drop], ?_⟩
    simp only [pos, width_cons, Nat.add_assoc]
  | quoted | inner => exact ⟨[], rfl, rfl⟩
  | backtick | nested => exact ⟨['\x60'], rfl, rfl⟩
  | @escaped _ _ r =>
    refine ⟨('\\' :: r).take 2, ?_, rfl⟩
    exact (List.take_append_drop 2 ('\\' :: r)).symm
  | enter => exact ⟨['$', '\x7b'], rfl, rfl⟩
  | @leave _ _ n r =>
    refine ⟨'$' :: '\x7b' :: r.take n, ?_, ?_⟩
    · simp only [left, List.cons_append, List.take_append_drop]
    · simp only [pos, width_cons, show '$'.utf8Size = 1 from rfl, show '\x7b'.utf8Size = 1 from rfl]
      omega
  | plain | other => exact ⟨[_], rfl, by simp only [pos, width_cons, width_nil, Nat.add_zero]⟩
  | close => exact ⟨['\x7d'], rfl, rfl⟩
  | @behindInner _ _ _ n q r _ hq =>
    have hsize : q.utf8Size = 1 := by rcases hq with rfl | rfl <;> rfl
    refine ⟨q :: r.take n, by simp only [left, List.cons_append, List.take_append_drop], ?_⟩
    simp only [pos, width_cons, hsize, Nat.add_assoc]
  | @behindNested _ _ _ n r =>
    refine ⟨'\x60' :: r.take n, by simp only [left, List.cons_append, List.take_append_drop], ?_⟩
    simp only [pos, width_cons, show '\x60'.utf8Size = 1 from rfl, Nat.add_assoc]

/-! ## Failures come from a call -/

/-- How many characters a scan has before it. -/
def size : Scan → Nat
  | text _ _ _ s | template _ _ s | substitution _ _ _ s | literal _ _ s => s.length

theorem Step.size_lt (h : Step a b) : b.size < a.size := by
  cases h <;> simp only [size, List.length_cons, List.length_drop] <;> omega

/-- A lexeme is refused for a string only if it is a literal or a template. -/
theorem exists_step_of_lexemeAt {pos : Nat} {broken : Bool} {previous : Option Lexeme} {c : Char}
    {r : List Char} (h : lexemeAt previous pos c r = .error e)
    (he : e.cause.IsOfString) :
    ∃ b, Step (text pos broken previous (c :: r)) b ∧ b.Fails e := by
  unfold lexemeAt at h
  split at h
  · rename_i hq
    split at h
    · rename_i cause hbody
      exact ⟨_, .quoted hq, cause, hbody, (Except.error.inj h).symm⟩
    · cases h
  split at h
  · rename_i hc
    subst hc
    split at h
    · rename_i hbody
      cases h
      exact ⟨_, .backtick, hbody⟩
    · cases h
  split at h
  · cases h
  split at h
  · split at h
    · cases h
      rcases he with he | he <;> cases he
    · cases h
  split at h
  · cases h
  · split at h
    · cases h
      rcases he with he | he <;> cases he
    · cases h

theorem exists_step_of_piecesFrom {pos : Nat} {broken : Bool} {previous : Option Lexeme}
    {s : List Char} (h : piecesFrom pos broken previous s = .error e)
    (he : e.cause.IsOfString) :
    ∃ b, Step (text pos broken previous s) b ∧ b.Fails e := by
  rcases s with _ | ⟨c, r⟩
  · rw [piecesFrom] at h
    cases h
  by_cases hgap : isGap c = true
  · rw [piecesFrom, if_pos hgap] at h
    exact ⟨_, .gap hgap, h⟩
  by_cases hline : c = '/' ∧ r.head? = some '/'
  · obtain ⟨rfl, hr⟩ := hline
    obtain ⟨r, rfl⟩ := List.head?_eq_some_iff.mp hr
    rw [piecesFrom_line] at h
    exact ⟨_, .line, eq_error_of_map_eq h⟩
  by_cases hblock : c = '/' ∧ r.head? = some '*'
  · obtain ⟨rfl, hr⟩ := hblock
    obtain ⟨r, rfl⟩ := List.head?_eq_some_iff.mp hr
    cases hn : blockLength? r with
    | none =>
      rw [piecesFrom, if_neg hgap, if_neg hline, if_pos ⟨rfl, rfl⟩] at h
      simp only [List.drop_succ_cons, List.drop_zero, hn] at h
      cases h
      rcases he with he | he <;> cases he
    | some n =>
      rw [piecesFrom_block _ _ _ hn] at h
      exact ⟨_, .block hn, eq_error_of_map_eq h⟩
  cases hl : lexemeAt previous pos c r with
  | error e' =>
    rw [piecesFrom, if_neg hgap, if_neg hline, if_neg hblock, hl] at h
    cases h
    exact exists_step_of_lexemeAt hl he
  | ok p =>
    obtain ⟨l, n⟩ := p
    rw [piecesFrom_lexeme hgap hline hblock hl] at h
    exact ⟨_, .lexeme hgap hline hblock hl, eq_error_of_map_eq h⟩

theorem exists_step_of_templateBody {start pos : Nat} {s : List Char}
    (h : templateBody start pos s = .error e)
    (he : e.cause.IsOfString) :
    ∃ b, Step (template start pos s) b ∧ b.Fails e := by
  rcases s with _ | ⟨c, r⟩
  · rw [templateBody] at h
    cases h
    rcases he with he | he <;> cases he
  by_cases hquote : c = '\x60'
  · subst hquote
    rw [templateBody] at h
    cases h
  by_cases hback : c = '\\'
  · subst hback
    rw [templateBody] at h
    split at h
    · rename_i hbody
      cases h
      exact ⟨_, .escaped, hbody⟩
    · cases h
  by_cases hopen : ∃ t, c = '$' ∧ r = '\x7b' :: t
  · obtain ⟨t, rfl, rfl⟩ := hopen
    rw [templateBody] at h
    split at h
    · rename_i hsub
      cases h
      exact ⟨_, .enter, hsub⟩
    · rename_i n hn
      split at h
      · rename_i hbody
        cases h
        exact ⟨_, .leave hn, hbody⟩
      · cases h
  · have hplain : ∀ t, c = '$' → r ≠ '\x7b' :: t := fun t hc hr => hopen ⟨t, hc, hr⟩
    rw [templateBody.eq_5 _ _ _ _ hquote hback hplain] at h
    split at h
    · rename_i hbody
      cases h
      exact ⟨_, .plain hquote hback hplain, hbody⟩
    · cases h

theorem exists_step_of_substitution {start pos depth : Nat} {s : List Char}
    (h : Source.substitution start pos depth s = .error e)
    (he : e.cause.IsOfString) :
    ∃ b, Step (substitution start pos depth s) b ∧ b.Fails e := by
  rcases s with _ | ⟨c, r⟩
  · rw [Source.substitution] at h
    cases h
    rcases he with he | he <;> cases he
  rw [Source.substitution.eq_def] at h
  simp only at h
  split at h
  · rename_i hclose
    subst hclose
    split at h
    · cases h
    · split at h
      · rename_i hrest
        cases h
        exact ⟨_, .close, hrest⟩
      · cases h
  rename_i hclose
  split at h
  · rename_i hq
    split at h
    · rename_i cause hbody
      exact ⟨_, .inner hq, cause, hbody, (Except.error.inj h).symm⟩
    · rename_i v k hbody
      split at h
      · rename_i hrest
        cases h
        exact ⟨_, .behindInner hq hbody, hrest⟩
      · cases h
  rename_i hq
  split at h
  · rename_i hc
    subst hc
    split at h
    · rename_i hbody
      cases h
      exact ⟨_, .nested, hbody⟩
    · rename_i body k hbody
      split at h
      · rename_i hrest
        cases h
        exact ⟨_, .behindNested hbody, hrest⟩
      · cases h
  · rename_i hc
    split at h
    · rename_i hrest
      cases h
      exact ⟨_, .other hclose hq hc, hrest⟩
    · cases h

/-- A scan that is refused for a string is at a literal, or the next one is refused for it. -/
theorem Fails.exists_step (h : a.Fails e) (he : e.cause.IsOfString) :
    (∃ pos q s, a = literal pos q s) ∨ ∃ b, a.Step b ∧ b.Fails e := by
  cases a with
  | text => exact Or.inr (exists_step_of_piecesFrom h he)
  | template => exact Or.inr (exists_step_of_templateBody h he)
  | substitution => exact Or.inr (exists_step_of_substitution h he)
  | literal pos q s => exact Or.inl ⟨pos, q, s, rfl⟩

/-- A scan leads to another one by the calls that are made. -/
def Leads : Scan → Scan → Prop := Relation.ReflTransGen Step

theorem Leads.fails (h : Leads a b) (hb : b.Fails e) : a.Fails e := by
  induction h using Relation.ReflTransGen.head_induction_on with
  | refl => exact hb
  | head hstep _ ih => exact hstep.fails ih

theorem Leads.before (h : Leads a b) : a.Before b := by
  induction h with
  | refl => exact .refl a
  | tail _ hstep ih => exact ih.trans hstep.before

/-- What is refused for a string leads to a literal that is refused. -/
theorem Fails.exists_literal {a : Scan} (h : a.Fails e)
    (he : e.cause.IsOfString) :
    ∃ pos q s, Leads a (literal pos q s) ∧ (literal pos q s).Fails e := by
  rcases h.exists_step he with ⟨pos, q, s, rfl⟩ | ⟨b, hstep, hb⟩
  · exact ⟨pos, q, s, .refl, h⟩
  · obtain ⟨pos, q, s, hleads, hfails⟩ := hb.exists_literal he
    exact ⟨pos, q, s, .head hstep hleads, hfails⟩
termination_by a.size
decreasing_by exact hstep.size_lt

end Scan

/-! ## The literals of a text -/

/-- `Reaches source pos q s` : the lexer comes to a literal with the quote `q` at byte `pos` of a
text, in front of `s`. -/
def Reaches (source : List Char) (pos : Nat) (q : Char) (s : List Char) : Prop :=
  Scan.Leads (.text 0 false none source) (.literal pos q s)

theorem tokenize_eq_error_iff_fails {source : List Char} {e : Error} :
    tokenize source = .error e ↔ (Scan.text 0 false none source).Fails e := by
  rw [Scan.Fails, tokenize]
  cases piecesFrom 0 false none source <;> simp

namespace Reaches

variable {source s : List Char} {pos : Nat} {q : Char} {cause : Cause}

theorem isQuote (h : Reaches source pos q s) : IsQuote q := by
  rcases Relation.ReflTransGen.cases_tail h with heq | ⟨b, -, hstep⟩
  · cases heq
  · cases hstep <;> assumption

/-- A literal is at the byte where its quote is. -/
theorem exists_front (h : Reaches source pos q s) :
    ∃ front, source = front ++ q :: s ∧ pos = width front := by
  obtain ⟨front, hsource, hpos⟩ := Scan.Leads.before h
  exact ⟨front, hsource, hpos.trans (Nat.zero_add _)⟩

/-- A text is refused for a literal that cannot be read, at its quote. -/
theorem tokenize_eq (h : Reaches source pos q s) (hs : stringBody q s = .error cause) :
    tokenize source = .error ⟨pos, cause⟩ :=
  tokenize_eq_error_iff_fails.mpr (Scan.Leads.fails h ⟨cause, hs, rfl⟩)

end Reaches

/-- A text is refused for a string exactly if the lexer reaches a literal that is refused for it. -/
theorem tokenize_eq_error_iff {source : List Char} {pos : Nat} {cause : Cause}
    (hcause : cause.IsOfString) : tokenize source = .error ⟨pos, cause⟩ ↔
      ∃ q s, Reaches source pos q s ∧ stringBody q s = .error cause := by
  refine ⟨fun h => ?_, fun ⟨q, s, hreach, hs⟩ => hreach.tokenize_eq hs⟩
  obtain ⟨pos', q, s, hleads, cause', hs, heq⟩ :=
    (tokenize_eq_error_iff_fails.mp h).exists_literal hcause
  cases heq
  exact ⟨q, s, hleads, hs⟩

end CallContract.Source
