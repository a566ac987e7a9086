import CallContract.Proofs.Source.TopLevel
import Mathlib

/-!
# Declarations in the order of the text

A declaration is a statement of the text, and the end that it remembers is that of the statement
in front of it. So it lies between the declarations in front of it and itself
(`declarations_order`), and is missing where nothing but semicolons comes in front
(`previousStop_eq_none_iff`). As a declaration starts and stops with a token, no comment lies
across one of its ends (`Comment.BesidePlace.of_tokenize`). All of this holds of every text that
is read (`fileInOrder_of_readModule`).
-/

namespace CallContract.Source

/-! ## The first statement -/

section Statements

variable {text : List Char} {size : Nat} {ts : List Token} {ss : List Statement}

/-- A statement does not start with a semicolon. -/
theorem first_ne_semicolon (h : statements text size ts = .ok ss) :
    ∀ s ∈ ss, s.first.lexeme ≠ .mark .semicolon := by
  fun_induction statements text size ts generalizing ss with
  | case1 =>
    cases h
    exact fun s hs => (List.not_mem_nil hs).elim
  | case2 t r _ ih => exact ih h
  | case3 => simp at h
  | case4 => simp at h
  | case5 t r ht f n _ ss' hs ih =>
    cases h
    exact List.forall_mem_cons.mpr ⟨ht, ih hs⟩

/-- In front of the first statement there are only semicolons. -/
theorem semicolon_of_lt_first (h : statements text size ts = .ok ss) (ho : TokensInOrder ts)
    {s : Statement} {rest : List Statement} (hss : ss = s :: rest) :
    ∀ t ∈ ts, t.start < s.start → t.lexeme = .mark .semicolon := by
  fun_induction statements text size ts generalizing ss with
  | case1 =>
    cases h
    cases hss
  | case2 t r ht ih =>
    obtain ⟨_, hr⟩ := List.pairwise_cons.mp ho.pairwise
    have hor : TokensInOrder r := ⟨hr, fun u hu => ho.start_lt_stop u (List.mem_cons_of_mem _ hu)⟩
    exact List.forall_mem_cons.mpr ⟨fun _ => ht, ih h hor hss⟩
  | case3 => simp at h
  | case4 => simp at h
  | case5 t r ht f n _ ss' hs ih =>
    cases h
    obtain ⟨rfl, -⟩ := List.cons.inj hss
    refine List.forall_mem_cons.mpr ⟨fun hlt => absurd hlt (Nat.lt_irrefl _), fun u hu hlt => ?_⟩
    have hbehind := (List.pairwise_cons.mp ho.pairwise).1 u hu
    have hstop := ho.start_lt_stop t List.mem_cons_self
    simp only [Statement.start] at hlt
    omega

/-- A declaration remembers no end exactly if only semicolons come in front of it. -/
theorem previousStop_eq_none_iff (h : statements text size ts = .ok ss) (ho : TokensInOrder ts)
    {d : Declaration} (hd : d ∈ declarations none ss) : d.previousStop = none ↔
      ∀ t ∈ ts, t.start < d.start → t.lexeme = .mark .semicolon := by
  obtain ⟨pre, s, post, rfl, -, hstart, -, hprevious⟩ := mem_declarations hd
  rw [Option.or_none] at hprevious
  rw [hprevious, hstart]
  cases pre with
  | nil => exact iff_of_true rfl (semicolon_of_lt_first h ho rfl)
  | cons a pre =>
    refine iff_of_false (by simp [List.getLast?_cons]) fun hall => ?_
    have ha : a ∈ a :: pre ++ s :: post := List.mem_cons_self
    have hapart : a.stop ≤ s.start :=
      (List.pairwise_append.mp (statements_pairwise ho h)).2.2 a List.mem_cons_self s
        List.mem_cons_self
    have hlt := start_lt_stop_of_mem_statements ho h ha
    have hmem := mem_of_mem_statement h ha (t := a.first) List.mem_cons_self
    exact first_ne_semicolon h a ha (hall a.first hmem (Nat.lt_of_lt_of_le hlt hapart))

end Statements

/-! ## Declarations among each other -/

/-- The end that a declaration remembers lies between the declarations in front and itself. -/
def Follows (d e : Declaration) : Prop := ∃ p, e.previousStop = some p ∧ d.stop ≤ p ∧ p ≤ e.start

/-- Behind a statement each declaration remembers an end, which does not come before that of the
statement. -/
theorem previousStop_of_behind {s : Statement} {ss : List Statement}
    (hlt : ∀ a ∈ ss, a.start < a.stop)
    (hp : (s :: ss).Pairwise fun a b => a.stop ≤ b.start) {e : Declaration}
    (he : e ∈ declarations (some s.stop) ss) :
    ∃ p, e.previousStop = some p ∧ s.stop ≤ p ∧ p ≤ e.start := by
  obtain ⟨hs, hss⟩ := List.pairwise_cons.mp hp
  obtain ⟨pre, a, post, rfl, -, hstart, -, hprevious⟩ := mem_declarations he
  rw [hprevious, hstart]
  rcases List.eq_nil_or_concat pre with rfl | ⟨pre, b, rfl⟩
  · exact ⟨s.stop, rfl, Nat.le_refl _, hs a List.mem_cons_self⟩
  · rw [List.concat_eq_append] at hs hss hlt ⊢
    have hb : b ∈ pre ++ [b] ++ a :: post := by simp
    have hba := (List.pairwise_append.mp hss).2.2 b (by simp) a List.mem_cons_self
    have hsb := hs b hb
    have hlt := hlt b hb
    exact ⟨b.stop, by simp, by omega, hba⟩

/-- Each declaration is followed by those behind it. -/
theorem declarations_order : ∀ {ss : List Statement} {previous : Option Nat},
    (∀ a ∈ ss, a.start < a.stop) → (ss.Pairwise fun a b => a.stop ≤ b.start) →
      (declarations previous ss).Pairwise Follows
  | [], _, _, _ => .nil
  | s :: ss, previous, hlt, hp => by
    have htail : (declarations (some s.stop) ss).Pairwise Follows :=
      declarations_order (fun a ha => hlt a (List.mem_cons_of_mem _ ha))
        (List.pairwise_cons.mp hp).2
    cases hf : s.function with
    | none =>
      rw [declarations, hf]
      exact htail
    | some f =>
      rw [declarations, hf]
      refine .cons (fun e he => ?_) htail
      exact previousStop_of_behind (fun a ha => hlt a (List.mem_cons_of_mem _ ha)) hp he

/-! ## Comments beside declarations -/

/-- A comment ends before a place of the text or starts behind it. -/
def Comment.BesidePlace (c : Comment) (place : Nat) : Prop := c.stop ≤ place ∨ place ≤ c.start

/-- No comment lies across the start or the end of a token. -/
theorem Comment.BesidePlace.of_tokenize {s : List Char} {l : Lexed} (h : tokenize s = .ok l)
    {t : Token} {c : Comment} (ht : t ∈ l.tokens) (hc : c ∈ l.comments) :
    c.BesidePlace t.start ∧ c.BesidePlace t.stop := by
  have hlt := start_lt_stop_of_mem_tokens h ht
  rcases apart_of_tokenize h ht hc with hapart | hapart
  · exact ⟨Or.inl hapart, Or.inl (by omega)⟩
  · exact ⟨Or.inr (by omega), Or.inr hapart⟩

/-! ## Texts that are read -/

/-- The declarations and the comments of a text with the tokens `ts` are in the order of the
text. -/
structure FileInOrder (ts : List Token) (file : File) : Prop where
  start_lt_stop : ∀ d ∈ file.declarations, d.start < d.stop
  /-- Between two declarations lies the end that the second remembers. -/
  follows : file.declarations.Pairwise Follows
  /-- A declaration remembers no end if it is the first statement, but for empty ones. -/
  previousStop_eq_none_iff : ∀ d ∈ file.declarations, d.previousStop = none ↔
    ∀ t ∈ ts, t.start < d.start → t.lexeme = .mark .semicolon
  previousStop_le : ∀ d ∈ file.declarations, ∀ p ∈ d.previousStop, p ≤ d.start
  comments : file.comments.Pairwise fun b c => b.stop ≤ c.start
  comment_start_lt_stop : ∀ c ∈ file.comments, c.start < c.stop
  /-- No comment lies across the start or the end of a declaration. -/
  beside : ∀ c ∈ file.comments, ∀ d ∈ file.declarations,
    c.BesidePlace d.start ∧ c.BesidePlace d.stop

/-- The declarations and the comments of a text that is read are in the order of the text. -/
theorem fileInOrder_of_readModule {source : List Char} {file : File}
    (h : readModule source = .ok file) :
    ∃ l, tokenize source = .ok l ∧ FileInOrder l.tokens file := by
  obtain ⟨l, ss, hl, hs, rfl⟩ := declarations_of_readModule h
  have ho := tokensInOrder_of_tokenize hl
  have hlt : ∀ s ∈ ss, s.start < s.stop := fun s => start_lt_stop_of_mem_statements ho hs
  have hp := statements_pairwise ho hs
  refine ⟨l, hl, ?_, declarations_order hlt hp, fun d => previousStop_eq_none_iff hs ho,
    fun d hd => ?_, comments_pairwise hl, fun c => start_lt_stop_of_mem_comments hl,
    fun c hc d hd => ?_⟩
  · intro d hd
    obtain ⟨pre, s, post, rfl, -, hstart, hstop, -⟩ := mem_declarations hd
    rw [hstart, hstop]
    exact hlt s (by simp)
  · obtain ⟨pre, s, post, rfl, -, hstart, -, hprevious⟩ := mem_declarations hd
    rw [Option.or_none] at hprevious
    rw [hprevious, hstart]
    intro p hpmem
    obtain ⟨a, ha, rfl⟩ := Option.map_eq_some_iff.mp hpmem
    exact (List.pairwise_append.mp hp).2.2 a (List.mem_of_getLast? ha) s List.mem_cons_self
  · obtain ⟨pre, s, post, rfl, -, hstart, hstop, -⟩ := mem_declarations hd
    have hmem : s ∈ pre ++ s :: post := by simp
    rw [hstart, hstop]
    exact ⟨(Comment.BesidePlace.of_tokenize hl
        (mem_of_mem_statement hs hmem (t := s.first) List.mem_cons_self) hc).1,
      (Comment.BesidePlace.of_tokenize hl (mem_of_mem_statement hs hmem s.last_mem_tokens) hc).2⟩

/-- A text with an empty statement in front, comments within functions, and a statement between
them that declares none. -/
def mixedText : List Char :=
  ";function f(/*a*/) \x7b/*b*/\x7d x\n/** c */ const g = y => y".toList

theorem fileInOrder_mixedText : ∃ file l, readModule mixedText = .ok file ∧
    file.declarations = [⟨"f", [], 1, 26, none⟩, ⟨"g", [.ident "y"], 38, 54, some 28⟩] ∧
    file.comments.map (fun c => (c.start, c.stop)) = [(12, 17), (20, 25), (29, 37)] ∧
    tokenize mixedText = .ok l ∧ FileInOrder l.tokens file := by
  have h : readModule mixedText = .ok
      ⟨[⟨"f", [], 1, 26, none⟩, ⟨"g", [.ident "y"], 38, 54, some 28⟩],
        [⟨true, "a", 12, 17⟩, ⟨true, "b", 20, 25⟩, ⟨true, "* c ", 29, 37⟩]⟩ := by cbv
  obtain ⟨l, hl, ho⟩ := fileInOrder_of_readModule h
  exact ⟨_, l, h, rfl, rfl, hl, ho⟩

end CallContract.Source
