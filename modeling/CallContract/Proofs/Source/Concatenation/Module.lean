import CallContract.Proofs.Source.Concatenation.Statements
import Mathlib

/-!
# Two texts in one

A text that ends with a semicolon can be put in front of another, with a new line between them.
The declarations of both are then those of the first followed by those of the second, further on
by the first text and the new line; a declaration of the second that remembers no end in front of
it remembers that of the last statement of the first (`readModule_append`).
-/

namespace CallContract

/-- The declaration `k` bytes further on, behind a text whose last statement stops at
`previous`. -/
def Declaration.moved (k : Nat) (previous : Option Nat) (d : Declaration) : Declaration :=
  { d with
    start := k + d.start
    stop := k + d.stop
    previousStop := (d.previousStop.map (k + ·)).or previous }

theorem Declaration.moved_zero : moved 0 none = id := by
  funext d
  simp [moved]

namespace Source

/-- Moved statements declare what they did, further on. -/
theorem declarations_of_moved {k : Nat} {ss ss' : List Statement}
    (h : List.Forall₂ (Statement.Moved k) ss ss') (previous : Option Nat) : ∀ p : Option Nat,
    declarations ((p.map (k + ·)).or previous) ss' =
      (declarations p ss).map (Declaration.moved k previous) := by
  induction h with
  | nil => exact fun _ => rfl
  | @cons s s' ss ss' hs _ ih =>
    intro p
    have hrest : declarations (some s'.stop) ss' =
        (declarations (some s.stop) ss).map (Declaration.moved k previous) := by
      rw [hs.stop]
      exact ih (some s.stop)
    rw [declarations, declarations, hs.function, hrest]
    cases s.function with
    | none => rfl
    | some f =>
      rw [hs.start, hs.stop]
      rfl

theorem getLast?_of_moved {k : Nat} {ss ss' : List Statement}
    (h : List.Forall₂ (Statement.Moved k) ss ss') :
    ss'.getLast?.map Statement.stop = (ss.getLast?.map Statement.stop).map (k + ·) := by
  have hstops : ss'.map Statement.stop = (ss.map Statement.stop).map (k + ·) := by
    induction h with
    | nil => rfl
    | cons hs _ ih => rw [List.map_cons, List.map_cons, List.map_cons, hs.stop, ih]
  rw [← List.getLast?_map, hstops, List.getLast?_map, List.getLast?_map]

/-- Behind other statements the end of the last of them is remembered. -/
theorem declarations_append : ∀ (ss ss' : List Statement) (p : Option Nat),
    declarations p (ss ++ ss') =
      declarations p ss ++ declarations ((ss.getLast?.map Statement.stop).or p) ss'
  | [], ss', p => rfl
  | s :: ss, ss', p => by
    have hlast : ((s :: ss).getLast?.map Statement.stop).or p =
        (ss.getLast?.map Statement.stop).or (some s.stop) := by
      rw [List.getLast?_cons]
      cases ss.getLast? <;> rfl
    rw [hlast, List.cons_append, declarations, declarations, declarations_append ss ss']
    cases s.function <;> rfl

/-- The statements of two texts, of which the first ends with a semicolon, are the statements of
the text that they make up. -/
theorem exists_statements_of_append {a b : List Char} {la lb : Lexed} {ss us : List Statement}
    (ha : tokenize a = .ok la) (hb : tokenize b = .ok lb)
    (hss : statements a la.size la.tokens = .ok ss)
    (hus : statements b lb.size lb.tokens = .ok us)
    (hlast : la.tokens.getLast?.map Token.lexeme = some (.mark .semicolon)) (size : Nat) :
    ∃ ss' us', List.Forall₂ (Statement.Moved 0) ss ss' ∧
      List.Forall₂ (Statement.Moved (width a + 1)) us us' ∧
      statements (a ++ '\n' :: b) size
        (la.tokens ++ moveAll (width a + 1) true lb.tokens) = .ok (ss' ++ us') := by
  have hfirst : Complete a (a ++ '\n' :: b) 0 la.tokens (moveAll (width a + 1) true lb.tokens) :=
    ⟨balanced_of_statements hss, embeds_of_tokenize ha [] ('\n' :: b), .inr hlast⟩
  have hsecond : Complete b (a ++ '\n' :: b) (width a + 1) lb.tokens [] := by
    have hembeds := embeds_of_tokenize hb (a ++ ['\n']) []
    rw [width_append, List.append_nil, List.append_assoc] at hembeds
    exact ⟨balanced_of_statements hus, hembeds, .inl rfl⟩
  obtain ⟨ss', hmoved, hstatements⟩ := exists_statements_append (fun _ => hfirst) hss size false
  obtain ⟨us', hmoved', hstatements'⟩ := exists_statements_append (fun _ => hsecond) hus size true
  refine ⟨ss', us', hmoved, hmoved', ?_⟩
  rw [moveAll_false, Token.moved_zero, List.map_id] at hstatements
  rw [List.append_nil] at hstatements'
  rw [hstatements, hstatements', statements]
  change Except.ok (ss' ++ (us' ++ [])) = _
  rw [List.append_nil]

/-- Behind a text that ends with a semicolon and a new line, a text declares what it does by
itself. -/
theorem readModule_append {a b : List Char} {fa fb : File} {l : Lexed}
    (ha : readModule a = .ok fa) (hb : readModule b = .ok fb) (hl : tokenize a = .ok l)
    (hlast : l.tokens.getLast?.map Token.lexeme = some (.mark .semicolon)) :
    ∃ ss, statements a l.size l.tokens = .ok ss ∧
      readModule (a ++ '\n' :: b) = .ok
        ⟨fa.declarations ++ fb.declarations.map
            (Declaration.moved (width a + 1) (ss.getLast?.map Statement.stop)),
          fa.comments ++ fb.comments.map (Comment.moved (width a + 1))⟩ := by
  obtain ⟨la, ss, hla, hss, rfl⟩ := declarations_of_readModule ha
  obtain ⟨lb, us, hlb, hus, rfl⟩ := declarations_of_readModule hb
  obtain rfl : la = l := Except.ok.inj (hla.symm.trans hl)
  refine ⟨ss, hss, ?_⟩
  obtain ⟨ss', us', hmoved, hmoved', hall⟩ := exists_statements_of_append hla hlb hss hus hlast
    (width a + 1 + width b)
  have hdeclared := declarations_of_moved hmoved none none
  have hdeclared' := declarations_of_moved hmoved' (ss.getLast?.map Statement.stop) none
  have hlastStop := getLast?_of_moved hmoved
  simp only [Option.map_none, Option.none_or, Declaration.moved_zero, List.map_id, Nat.zero_add,
    Option.map_id'] at hdeclared hdeclared' hlastStop
  unfold readModule
  rw [tokenize_append hla hlb hlast]
  dsimp only
  rw [readStatements_eq, hall]
  change Except.ok _ = Except.ok _
  rw [declarations_append, hdeclared, hlastStop, Option.or_none, hdeclared']

/-- A text whose last statement is a function, with a comment behind it. -/
def functionText : List Char := "run()\nconst f = (a = [1]) => a; // end".toList

/-- A text with two functions. -/
def functionsText : List Char := "function g(b) \x7b\x7d\nlet h = c => c".toList

theorem readModule_functionText_append : ∃ l ss fa fb, readModule functionText = .ok fa ∧
    readModule functionsText = .ok fb ∧ tokenize functionText = .ok l ∧
    l.tokens.getLast?.map Token.lexeme = some (.mark .semicolon) ∧
    statements functionText l.size l.tokens = .ok ss ∧ ss.getLast?.map Statement.stop = some 31 ∧
    readModule (functionText ++ '\n' :: functionsText) = .ok
      ⟨[⟨"f", [.withDefault (.ident "a") (.other "[1]")], 6, 31, some 5⟩,
          ⟨"g", [.ident "b"], 39, 55, some 31⟩, ⟨"h", [.ident "c"], 56, 70, some 55⟩],
        [⟨false, " end", 32, 38⟩]⟩ := by
  have ha : readModule functionText = .ok
      ⟨[⟨"f", [.withDefault (.ident "a") (.other "[1]")], 6, 31, some 5⟩],
        [⟨false, " end", 32, 38⟩]⟩ := by cbv
  have hb : readModule functionsText = .ok
      ⟨[⟨"g", [.ident "b"], 0, 16, none⟩, ⟨"h", [.ident "c"], 17, 31, some 16⟩], []⟩ := by cbv
  have h : (tokenize functionText >>= fun l =>
      (statements functionText l.size l.tokens).map fun ss =>
        (l.tokens.getLast?.map Token.lexeme, ss.getLast?.map Statement.stop)) =
      .ok (some (.mark .semicolon), some 31) := by cbv
  obtain ⟨l, hl, h⟩ := eq_ok_of_bind_eq h
  obtain ⟨ss, hss, h⟩ := eq_ok_of_map_eq h
  obtain ⟨hlast, hstop⟩ := Prod.mk.inj h
  obtain ⟨ss', hss', hread⟩ := readModule_append ha hb hl hlast
  obtain rfl := Except.ok.inj (hss.symm.trans hss')
  rw [hstop] at hread
  exact ⟨l, ss, _, _, ha, hb, hl, hlast, hss, hstop, hread⟩

end Source

end CallContract
