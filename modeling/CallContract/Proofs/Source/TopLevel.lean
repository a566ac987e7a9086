import CallContract.Proofs.Source.Piece
import CallContract.Source.Module
import Mathlib.Data.List.Flatten

/-!
# Top-level statements

`readStatements` keeps of the statements only those that declare a function, and of the others
the place where they stop. `statements` keeps them all, so that `the statement in front` can be
said of a list : a declaration is a statement with a function, and its `previousStop` is the
stop of the statement in front of it (`mem_declarations`). A semicolon on its own is no
statement.

Statements are made of tokens of the text in order, hence do not overlap (`statements_pairwise`).
-/

namespace CallContract.Source

/-- A top-level statement: its tokens, and the function that it declares. -/
structure Statement where
  first : Token
  others : List Token
  function : Option (String × List Pattern)

namespace Statement

/-- The byte offset at which a statement starts. -/
def start (s : Statement) : Nat := s.first.start

/-- The last token of a statement. -/
def last (s : Statement) : Token := s.others.getLast?.getD s.first

/-- The byte offset at which a statement stops. -/
def stop (s : Statement) : Nat := s.last.stop

/-- All tokens of a statement. -/
def tokens (s : Statement) : List Token := s.first :: s.others

theorem last_mem_tokens (s : Statement) : s.last ∈ s.tokens := by
  unfold last tokens
  cases h : s.others.getLast? with
  | none => exact List.mem_cons_self
  | some t => exact List.mem_cons_of_mem _ (List.mem_of_getLast? h)

end Statement

/-- The top-level statements that tokens make up. -/
def statements (text : List Char) (size : Nat) (ts : List Token) :
    Except Error (List Statement) :=
  match ts with
  | [] => .ok []
  | t :: r =>
    if t.lexeme = .mark .semicolon then statements text size r
    else
      match readStatement text size (t :: r) with
      | .error e => .error e
      | .ok (f, n) =>
        match statements text size (r.drop n) with
        | .error e => .error e
        | .ok ss => .ok (⟨t, r.take n, f⟩ :: ss)
termination_by ts.length
decreasing_by all_goals simp; try omega

/-- The declarations among statements, where `previous` is the stop of the statement in front
of all of them. -/
def declarations (previous : Option Nat) : List Statement → List Declaration
  | [] => []
  | s :: ss =>
    match s.function with
    | none => declarations (some s.stop) ss
    | some (name, params) =>
      ⟨name, params, s.start, s.stop, previous⟩ :: declarations (some s.stop) ss

/-- A statement in front of others. -/
theorem statements_cons {text : List Char} {size n : Nat} {t : Token} {r : List Token}
    {f : Option (String × List Pattern)} (ht : ¬t.lexeme = .mark .semicolon)
    (hf : readStatement text size (t :: r) = .ok (f, n)) :
    statements text size (t :: r) =
      (statements text size (r.drop n)).map (⟨t, r.take n, f⟩ :: ·) := by
  rw [statements, if_neg ht, hf]
  simp only
  cases statements text size (r.drop n) <;> rfl

/-- Reading statements is reading all of them and keeping the declarations. -/
theorem readStatements_eq (text : List Char) (size : Nat) (previous : Option Nat)
    (ts : List Token) : readStatements text size previous ts =
      (statements text size ts).map (declarations previous) := by
  fun_induction readStatements text size previous ts with
  | case1 => rw [statements]; rfl
  | case2 previous t r ht ih => rw [statements, if_pos ht, ih]
  | case3 previous t r ht e he => rw [statements, if_neg ht, he]; rfl
  | case4 previous t r ht f n hf stop e he ih =>
    rw [he] at ih
    rw [statements_cons ht hf, eq_error_of_map_eq ih.symm]
    rfl
  | case5 previous t r ht n stop ds hd hf ih =>
    rw [hd] at ih
    obtain ⟨ss, hs, rfl⟩ := eq_ok_of_map_eq ih.symm
    rw [statements_cons ht hf, hs]
    rfl
  | case6 previous t r ht n stop ds hd name params hf ih =>
    rw [hd] at ih
    obtain ⟨ss, hs, rfl⟩ := eq_ok_of_map_eq ih.symm
    rw [statements_cons ht hf, hs]
    rfl

/-- The declarations of a text that is read are those among its statements. -/
theorem declarations_of_readModule {source : List Char} {file : File}
    (h : readModule source = .ok file) :
    ∃ l ss, tokenize source = .ok l ∧ statements source l.size l.tokens = .ok ss ∧
      file = ⟨declarations none ss, l.comments⟩ := by
  unfold readModule at h
  split at h
  · simp at h
  · rename_i l hl
    rw [readStatements_eq] at h
    split at h
    · simp at h
    · rename_i ds hds
      cases h
      obtain ⟨ss, hs, rfl⟩ := eq_ok_of_map_eq hds
      exact ⟨l, ss, hl, hs, rfl⟩

/-! ## The order of statements -/

/-- The tokens of statements are tokens of the text, in their order. -/
theorem sublist_of_statements {text : List Char} {size : Nat} {ts : List Token}
    {ss : List Statement} (h : statements text size ts = .ok ss) :
    List.Sublist (ss.flatMap Statement.tokens) ts := by
  fun_induction statements text size ts generalizing ss with
  | case1 => cases h; exact .slnil
  | case2 t r _ ih => exact .cons _ (ih h)
  | case3 => simp at h
  | case4 => simp at h
  | case5 t r _ f n _ ss' hs ih =>
    cases h
    rw [List.flatMap_cons, Statement.tokens, List.cons_append]
    conv => arg 2; rw [← List.take_append_drop n r]
    exact .cons_cons _ ((List.Sublist.refl _).append (ih hs))

/-- Tokens in order, none of them empty. -/
structure TokensInOrder (ts : List Token) : Prop where
  pairwise : ts.Pairwise fun t u => t.stop ≤ u.start
  start_lt_stop : ∀ t ∈ ts, t.start < t.stop

theorem tokensInOrder_of_tokenize {source : List Char} {l : Lexed} (h : tokenize source = .ok l) :
    TokensInOrder l.tokens :=
  ⟨tokens_pairwise h, fun _ => start_lt_stop_of_mem_tokens h⟩

section Order

variable {text : List Char} {size : Nat} {ts : List Token} {ss : List Statement}

theorem mem_of_mem_statement (h : statements text size ts = .ok ss) {s : Statement} (hs : s ∈ ss)
    {t : Token} (ht : t ∈ s.tokens) : t ∈ ts :=
  (sublist_of_statements h).subset (List.mem_flatMap.mpr ⟨s, hs, ht⟩)

/-- A statement stops behind its start. -/
theorem start_lt_stop_of_mem_statements (ho : TokensInOrder ts)
    (h : statements text size ts = .ok ss)
    {s : Statement} (hs : s ∈ ss) : s.start < s.stop := by
  have hf := ho.start_lt_stop _ (mem_of_mem_statement h hs (t := s.first) List.mem_cons_self)
  have hl := ho.start_lt_stop _ (mem_of_mem_statement h hs s.last_mem_tokens)
  rcases List.mem_cons.mp s.last_mem_tokens with he | hm
  · rw [Statement.stop, he]
    exact hf
  · have hsub : List.Sublist s.tokens ts :=
      (by simpa using (List.singleton_sublist.mpr hs).flatMap Statement.tokens :
        List.Sublist s.tokens (ss.flatMap Statement.tokens)).trans (sublist_of_statements h)
    have := (List.pairwise_cons.mp (ho.pairwise.sublist hsub)).1 _ hm
    simp only [Statement.start, Statement.stop]
    omega

/-- Each statement stops before the next one starts. -/
theorem statements_pairwise (ho : TokensInOrder ts) (h : statements text size ts = .ok ss) :
    ss.Pairwise fun a b => a.stop ≤ b.start := by
  have hp := ho.pairwise.sublist (sublist_of_statements h)
  rw [List.pairwise_flatMap] at hp
  exact hp.2.imp fun hab => hab _ (Statement.last_mem_tokens _) _ List.mem_cons_self

end Order

/-! ## Declarations among statements -/

/-- A declaration is a statement with a function; `previousStop` is where the statement in front
of it stops. -/
theorem mem_declarations : ∀ {ss : List Statement} {previous : Option Nat} {d : Declaration},
    d ∈ declarations previous ss → ∃ pre s post, ss = pre ++ s :: post ∧
      s.function = some (d.name, d.params) ∧ d.start = s.start ∧ d.stop = s.stop ∧
      d.previousStop = (pre.getLast?.map Statement.stop).or previous
  | [], _, _, h => by cases h
  | s :: ss, previous, d, h => by
    have later : d ∈ declarations (some s.stop) ss → ∃ pre s' post, s :: ss = pre ++ s' :: post ∧
        s'.function = some (d.name, d.params) ∧ d.start = s'.start ∧ d.stop = s'.stop ∧
        d.previousStop = (pre.getLast?.map Statement.stop).or previous := by
      intro hd
      obtain ⟨pre, s', post, rfl, hf, hstart, hstop, hp⟩ := mem_declarations hd
      refine ⟨s :: pre, s', post, rfl, hf, hstart, hstop, ?_⟩
      rw [hp, List.getLast?_cons]
      cases pre.getLast? <;> rfl
    cases hf : s.function with
    | none =>
      rw [declarations, hf] at h
      exact later h
    | some f =>
      obtain ⟨name, params⟩ := f
      rw [declarations, hf] at h
      rcases List.mem_cons.mp h with rfl | h
      · exact ⟨[], s, ss, rfl, hf, rfl, rfl, rfl⟩
      · exact later h

/-- Declarations keep the order of their statements. -/
theorem declarations_pairwise : ∀ {ss : List Statement} {previous : Option Nat},
    (ss.Pairwise fun a b => a.stop ≤ b.start) →
      (declarations previous ss).Pairwise fun a b => a.stop ≤ b.start
  | [], _, _ => .nil
  | s :: ss, previous, h => by
    obtain ⟨hs, hp⟩ := List.pairwise_cons.mp h
    cases hf : s.function with
    | none =>
      rw [declarations, hf]
      exact declarations_pairwise hp
    | some f =>
      rw [declarations, hf]
      refine .cons (fun d hd => ?_) (declarations_pairwise hp)
      obtain ⟨pre, s', post, rfl, -, hstart, -⟩ := mem_declarations hd
      rw [hstart]
      exact hs s' (by simp)

end CallContract.Source
