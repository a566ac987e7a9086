import CallContract.Proofs.Source.Checked.Parameters
import CallContract.Proofs.Source.Concatenation.Parameters
import CallContract.Proofs.Source.Printing.Parameters

/-!
# Parameters that cannot be read

The tokens of a parameter are balanced and have no comma outside of brackets (`IsParameter`), so
whatever is read of them does not depend on the comma or the parenthesis behind them
(`readPattern_append`). A parameter of which nothing can be read is kept as text up to there
(`parameterLength?_append`). But one of which the reader takes a part, and not all
(`ReadInPart`), leaves the list at a token where no parameter ends.

By induction along a list of parameters (`Divided`) : if none is read in part, each is what it is
when it stands alone (`Recovered`, `readParameters_divided`), and if one is, the list cannot be read
(`readParameters_readInPart`).
-/

namespace CallContract.Source

variable {text : List Char} {p q : List Token} {t u v : Token} {r s : List Token} {d e n : Nat}

/-! ## Tokens of one parameter -/

/-- No comma stands where the depth of brackets, `d` at first, is zero. -/
def Undivided (d : Nat) (p : List Token) : Prop :=
  ∀ i (h : i < p.length), p[i].lexeme = .mark .comma → depthAfterAll? d (p.take i) ≠ some 0

/-- The tokens of one parameter : there are some, their brackets are closed, and no comma stands
outside of them. -/
structure IsParameter (p : List Token) : Prop where
  ne_nil : p ≠ []
  balanced : Balanced p
  undivided : Undivided 0 p

instance : Decidable (Undivided d p) := by
  unfold Undivided
  infer_instance

instance : Decidable (IsParameter p) :=
  decidable_of_iff (p ≠ [] ∧ depthAfterAll? 0 p = some 0 ∧ Undivided 0 p)
    ⟨fun h => ⟨h.1, h.2.1, h.2.2⟩, fun h => ⟨h.ne_nil, h.balanced, h.undivided⟩⟩

/-- A token that may stand behind a parameter. -/
def EndsParameter (u : Token) : Prop := u.lexeme = .mark .comma ∨ u.lexeme = .mark .parenClose

theorem Undivided.head (h : Undivided d (t :: p)) : ¬(d = 0 ∧ t.lexeme = .mark .comma) := by
  rintro ⟨rfl, ht⟩
  exact h 0 (Nat.succ_pos _) ht rfl

theorem Undivided.tail (h : Undivided d (t :: p)) (he : depthAfter? d t.lexeme = some e) :
    Undivided e p := by
  intro i hi hcomma hdepth
  refine h (i + 1) (Nat.succ_lt_succ hi) hcomma ?_
  rw [List.take_succ_cons, depthAfterAll?, he]
  exact hdepth

theorem Undivided.drop (h : Undivided 0 p) (hn : Took Balanced p n) : Undivided 0 (p.drop n) := by
  intro i hi hcomma hdepth
  rw [List.length_drop] at hi
  rw [List.getElem_drop] at hcomma
  refine h (n + i) (by omega) hcomma ?_
  rw [List.take_add, hn.2.depth_append]
  exact hdepth

theorem Balanced.drop (h : Balanced p) (hn : Took Balanced p n) : Balanced (p.drop n) := by
  rw [Balanced, ← List.take_append_drop n p, hn.2.depth_append] at h
  exact h

theorem Balanced.tail (h : Balanced (t :: p)) (ht : t.lexeme.IsPlain) : Balanced p := by
  rwa [Balanced, depthAfterAll?, ht.depthAfter?] at h

theorem EndsParameter.ne_assign (hu : EndsParameter u) : u.lexeme ≠ .mark .assign := by
  rcases hu with h | h <;> (rw [h]; decide)

theorem IsParameter.not_parenClose (h : IsParameter (t :: p)) : t.lexeme ≠ .mark .parenClose := by
  intro ht
  have hdepth := h.balanced
  rw [Balanced, depthAfterAll?, ht] at hdepth
  cases hdepth

/-! ## What is read of them -/

/-- A default value at the end of a parameter takes all its tokens. -/
theorem defaultLength?_append (hu : EndsParameter u) (r : List Token) :
    ∀ {q : List Token} {d : Nat}, depthAfterAll? d q = some 0 → Undivided d q →
      defaultLength? d (q ++ u :: r) = some q.length
  | [], d, hdepth, _ => by
    obtain rfl := Option.some.inj hdepth
    rw [List.nil_append, defaultLength?]
    rcases hu with h | h <;> (rw [h]; rfl)
  | t :: q, d, hdepth, hdivided => by
    obtain ⟨e, he, hq⟩ := Option.bind_eq_some_iff.mp hdepth
    rw [List.cons_append, defaultLength?, he]
    simp only [if_neg hdivided.head]
    rw [defaultLength?_append hu r hq (hdivided.tail he), Option.map_some, List.length_cons]

/-- A parameter that is kept as text takes all its tokens. -/
theorem parameterLength?_append (hu : EndsParameter u) (r : List Token) :
    ∀ {q : List Token} {d : Nat}, depthAfterAll? d q = some 0 → Undivided d q →
      parameterLength? d (q ++ u :: r) = some q.length
  | [], d, hdepth, _ => by
    obtain rfl := Option.some.inj hdepth
    rw [List.nil_append, parameterLength?, if_pos ⟨rfl, hu⟩, List.length_nil]
  | t :: q, d, hdepth, hdivided => by
    obtain ⟨e, he, hq⟩ := Option.bind_eq_some_iff.mp hdepth
    have hgoes : ¬(d = 0 ∧ (t.lexeme = .mark .comma ∨ t.lexeme = .mark .parenClose)) := by
      rintro ⟨rfl, ht | ht⟩
      · exact hdivided.head ⟨rfl, ht⟩
      · rw [ht] at he
        cases he
    rw [List.cons_append, parameterLength?, if_neg hgoes, he]
    simp only
    rw [parameterLength?_append hu r hq (hdivided.tail he), Option.map_some, List.length_cons]

theorem link_zero (ts us : List Token) : link 0 ts us = ts ++ us := by
  simp [link]

theorem enclosed_of_opens (h : Balanced (t :: p)) (ht : t.lexeme.opens = true) :
    Enclosed text text 0 p :=
  .of_balanced h (fun _ _ _ _ => by rw [Nat.zero_add, Nat.zero_add]) ht

/-- A target ends with its own tokens. -/
theorem readTarget_append (h : Balanced p) (hne : p ≠ []) (us : List Token) :
    readTarget text (p ++ us) = readTarget text p := by
  cases p with
  | nil => exact absurd rfl hne
  | cons t p =>
    rw [List.cons_append, readTarget, readTarget]
    split
    · rfl
    · rename_i hl
      rw [← link_zero, readProperties_link p (enclosed_of_opens h (hl ▸ rfl))]
    · rename_i hl
      rw [← link_zero, readElements_link p (enclosed_of_opens h (hl ▸ rfl))]
    · rfl

theorem readTarget_append_congr (h : Balanced p) (hu : EndsParameter u) (hv : EndsParameter v) :
    readTarget text (p ++ u :: r) = readTarget text (p ++ v :: s) := by
  have hends : ∀ {w : Token} (us : List Token), EndsParameter w →
      readTarget text (w :: us) = .error .otherForm := by
    intro w us hw
    rw [readTarget]
    rcases hw with h | h <;> rw [h]
  cases p with
  | nil => rw [List.nil_append, List.nil_append, hends r hu, hends s hv]
  | cons t p =>
    rw [readTarget_append h (List.cons_ne_nil t p), readTarget_append h (List.cons_ne_nil t p)]

theorem readDefault_append_congr (h : Balanced p) (hdivided : Undivided 0 p)
    (hu : EndsParameter u) (hv : EndsParameter v) :
    readDefault text (p ++ u :: r) = readDefault text (p ++ v :: s) := by
  rw [readDefault, readDefault, defaultLength?_append hu r h hdivided,
    defaultLength?_append hv s h hdivided]
  cases p with
  | nil => rfl
  | cons t p =>
    rw [List.length_cons]
    simp only
    rw [← List.length_cons (a := t), List.take_left, List.take_left]

theorem withDefault_append_congr (h : Balanced p) (hdivided : Undivided 0 p)
    (hu : EndsParameter u) (hv : EndsParameter v) (b : Pattern) (n : Nat) :
    withDefault text b n (p ++ u :: r) = withDefault text b n (p ++ v :: s) := by
  cases p with
  | nil => rw [List.nil_append, List.nil_append, withDefault, withDefault, if_neg hu.ne_assign,
      if_neg hv.ne_assign]
  | cons t p =>
    rw [List.cons_append, List.cons_append, withDefault, withDefault]
    split
    · rename_i ht
      have hplain : t.lexeme.IsPlain := ht ▸ ⟨rfl, rfl, by decide⟩
      rw [readDefault_append_congr (h.tail hplain) (hdivided.tail (hplain.depthAfter? 0)) hu hv]
    · rfl

/-- What is read of a parameter does not depend on what is behind it. -/
theorem readPattern_append (h : IsParameter p) (hu : EndsParameter u) (hv : EndsParameter v)
    (r s : List Token) : readPattern text (p ++ u :: r) = readPattern text (p ++ v :: s) := by
  obtain ⟨hne, hbalanced, hdivided⟩ := h
  cases p with
  | nil => exact absurd rfl hne
  | cons t p =>
    rw [List.cons_append, List.cons_append, readPattern, readPattern]
    split
    · rename_i ht
      rw [readTarget_append_congr (r := r) (s := s)
        (hbalanced.tail (ht ▸ ⟨rfl, rfl, by decide⟩)) hu hv]
    · rw [← List.cons_append, ← List.cons_append, readTarget_append hbalanced hne,
        readTarget_append hbalanced hne]
      cases htarget : readTarget text (t :: p) with
      | error e => rfl
      | ok b =>
        have htook := took_readTarget _ htarget
        simp only
        rw [List.drop_append_of_le_length htook.1, List.drop_append_of_le_length htook.1]
        exact withDefault_append_congr (hbalanced.drop htook) (hdivided.drop htook) hu hv b.1 b.2

/-- The reader takes nothing from behind a parameter. -/
theorem length_of_readPattern {close : Token} (h : IsParameter p)
    (hclose : close.lexeme = .mark .parenClose) {b : Pattern}
    (hread : readPattern text (p ++ [close]) = .ok (b, n)) : Took Balanced p n := by
  have htook := took_readPattern _ hread
  have hle : n ≤ p.length := by
    by_contra hlt
    have hall : (p ++ [close]).take n = p ++ [close] :=
      List.take_of_length_le (by rw [List.length_append]; exact Nat.lt_of_not_le hlt)
    have hdepth := htook.2
    rw [hall, Balanced, h.balanced.depth_append, depthAfterAll?, hclose] at hdepth
    cases hdepth
  refine ⟨hle, ?_⟩
  rw [← List.take_append_of_le_length hle]
  exact htook.2

/-! ## Parameters that stand alone -/

/-- What a parameter is when it stands alone in front of a closing parenthesis : the pattern that is
read of all its tokens, or its text if nothing can be read. -/
inductive Recovered (text : List Char) (close : Token) (p : List Token) : Pattern → Prop
  | readable {b : Pattern} : readPattern text (p ++ [close]) = .ok (b, p.length) →
    Recovered text close p b
  | unreadable {s : String} : readPattern text (p ++ [close]) = .error .otherForm →
    textOf text p = .ok s → Recovered text close p (.unsupported s)

/-- The reader takes some of the tokens of a parameter for a pattern, and not all. -/
def ReadInPart (text : List Char) (close : Token) (p : List Token) : Prop :=
  ∃ b n, readPattern text (p ++ [close]) = .ok (b, n) ∧ n < p.length

theorem Recovered.not_readInPart {close : Token} {b : Pattern} (h : Recovered text close p b) :
    ¬ReadInPart text close p := by
  rintro ⟨c, n, hread, hlt⟩
  cases h with
  | readable hb =>
    obtain ⟨-, rfl⟩ := Prod.mk.inj (Except.ok.inj (hb.symm.trans hread))
    exact Nat.lt_irrefl _ hlt
  | unreadable hnone => cases hnone.symm.trans hread

theorem Recovered.unique {close : Token} {b c : Pattern} (hb : Recovered text close p b)
    (hc : Recovered text close p c) : b = c := by
  cases hb with
  | readable hb =>
    cases hc with
    | readable hc => exact (Prod.mk.inj (Except.ok.inj (hb.symm.trans hc))).1
    | unreadable hnone => cases hb.symm.trans hnone
  | unreadable hnone hs =>
    cases hc with
    | readable hc => cases hnone.symm.trans hc
    | unreadable _ ht => rw [Except.ok.inj (hs.symm.trans ht)]

theorem sliceable_within {ts us : List Token} (h : Checked.Sliceable text ts) (hus : us <:+: ts) :
    Checked.Sliceable text us := fun _ hvs => h _ (hvs.trans hus)

/-- Where all stretches of text exist, tokens are refused only for their form. -/
theorem readPattern_cases {ts : List Token} (hs : Checked.Sliceable text ts) :
    readPattern text ts = .error .otherForm ∨ ∃ b n, readPattern text ts = .ok (b, n) := by
  rcases Checked.pattern_reads hs ts (.start ts) with ⟨-, h⟩ | ⟨b, n, -, -, h⟩
  · exact Or.inl h
  · exact Or.inr ⟨b, n, h⟩

section Lists

variable {close : Token} (hclose : close.lexeme = .mark .parenClose)
include hclose

/-- A parameter in front of a comma or a parenthesis is read in part, or is what it is alone. -/
theorem readParameter_append (h : IsParameter p) (hu : EndsParameter u)
    (hs : Checked.Sliceable text (p ++ u :: r)) : ReadInPart text close p ∨
      ∃ b, Recovered text close p b ∧ readParameter text (p ++ u :: r) = .ok (b, p.length) := by
  have halone : readPattern text (p ++ u :: r) = readPattern text (p ++ [close]) :=
    readPattern_append h hu (Or.inr hclose) r []
  rcases readPattern_cases hs with hform | ⟨b, n, hread⟩
  · obtain ⟨s, htext⟩ := hs p ⟨[], u :: r, by simp⟩
    refine Or.inr ⟨.unsupported s, .unreadable (halone.symm.trans hform) htext, ?_⟩
    rw [readParameter, hform]
    simp only
    rw [parameterLength?_append hu r h.balanced h.undivided]
    simp only
    rw [List.take_left, htext]
    rfl
  · have hread' := halone.symm.trans hread
    rcases Nat.lt_or_eq_of_le (length_of_readPattern h hclose hread').1 with hlt | rfl
    · exact Or.inl ⟨b, n, hread', hlt⟩
    · exact Or.inr ⟨b, .readable hread', readParameter_of_readPattern hread⟩

/-- Behind the part that is read stands neither a comma nor a parenthesis that ends the list. -/
theorem readParameters_of_readInPart (h : IsParameter p) (hu : EndsParameter u)
    (hpart : ReadInPart text close p) :
    readParameters text (p ++ u :: r) = .error .otherForm := by
  obtain ⟨b, n, halone, hlt⟩ := hpart
  have htook := length_of_readPattern h hclose halone
  have hread : readPattern text (p ++ u :: r) = .ok (b, n) := by
    rwa [readPattern_append h hu (Or.inr hclose) r []]
  have hnext : p.drop n = p[n] :: p.drop (n + 1) := List.drop_eq_getElem_cons hlt
  have hcomma : p[n].lexeme ≠ .mark .comma := fun hc => h.undivided n hlt hc htook.2
  have hparen : p[n].lexeme ≠ .mark .parenClose := by
    intro hc
    have hrest := h.balanced.drop htook
    rw [hnext, Balanced, depthAfterAll?, hc] at hrest
    cases hrest
  cases p with
  | nil => exact absurd rfl h.ne_nil
  | cons t p =>
    have hrest : (t :: (p ++ u :: r)).drop n =
        (t :: p)[n] :: ((t :: p).drop (n + 1) ++ u :: r) := by
      rw [← List.cons_append, List.drop_append_of_le_length htook.1, hnext]
      rfl
    rw [List.cons_append] at hread ⊢
    rw [readParameters, if_neg h.not_parenClose, readParameter_of_readPattern hread]
    dsimp only
    rw [hrest]
    dsimp only
    rw [if_neg hcomma, if_neg hparen]

end Lists

/-! ## Lists of parameters -/

/-- A parameter in front of a comma, and what is left of the list. -/
theorem readParameters_append_comma (h : IsParameter p) (hu : u.lexeme = .mark .comma) {b : Pattern}
    (hread : readParameter text (p ++ u :: r) = .ok (b, p.length)) :
    readParameters text (p ++ u :: r) =
      (readParameters text r).map fun x => (b :: x.1, p.length + 1 + x.2) := by
  have hrest : (p ++ u :: r).drop p.length = u :: r := List.drop_left
  obtain ⟨t, p, rfl⟩ := List.exists_cons_of_ne_nil h.ne_nil
  rw [List.cons_append] at hread hrest ⊢
  rw [readParameters, if_neg h.not_parenClose, hread]
  dsimp only
  rw [hrest]
  dsimp only
  rw [if_pos hu]
  cases readParameters text r <;> rfl

/-- A parameter in front of the closing parenthesis. -/
theorem readParameters_append_last (h : IsParameter p) (hu : u.lexeme = .mark .parenClose)
    {b : Pattern} (hread : readParameter text (p ++ u :: r) = .ok (b, p.length)) :
    readParameters text (p ++ u :: r) = .ok ([b], p.length + 1) := by
  have hrest : (p ++ u :: r).drop p.length = u :: r := List.drop_left
  obtain ⟨t, p, rfl⟩ := List.exists_cons_of_ne_nil h.ne_nil
  exact readParameters_last h.not_parenClose hread hrest hu

/-- Tokens are divided by commas into parameters. A comma may stand behind the last one. -/
inductive Divided : List (List Token) → List Token → Prop
  | nil : Divided [] []
  | last {p : List Token} : IsParameter p → Divided [p] p
  | comma {p ts : List Token} {u : Token} {ps : List (List Token)} : IsParameter p →
    u.lexeme = .mark .comma → Divided ps ts → Divided (p :: ps) (p ++ u :: ts)

section Lists

variable {close : Token} {ps : List (List Token)} {ts rest : List Token}
  (hclose : close.lexeme = .mark .parenClose) (h : Divided ps ts)
  (hs : Checked.Sliceable text (ts ++ close :: rest))
include hclose h hs

/-- If no parameter is read in part, each is what it is when it stands alone. -/
theorem readParameters_divided (hno : ∀ p ∈ ps, ¬ReadInPart text close p) :
    ∃ bs, List.Forall₂ (Recovered text close) ps bs ∧
      readParameters text (ts ++ close :: rest) = .ok (bs, ts.length + 1) := by
  induction h with
  | nil => exact ⟨[], .nil, by rw [List.nil_append, readParameters, if_pos hclose]; rfl⟩
  | @last p hp =>
    obtain ⟨b, hb, hread⟩ := (readParameter_append hclose hp (Or.inr hclose) hs).resolve_left
      (hno p List.mem_cons_self)
    exact ⟨[b], .cons hb .nil, readParameters_append_last hp hclose hread⟩
  | @comma p ts u ps hp hu _ ih =>
    obtain ⟨hfirst, hothers⟩ := List.forall_mem_cons.mp hno
    rw [List.append_assoc, List.cons_append] at hs ⊢
    obtain ⟨b, hb, hread⟩ := (readParameter_append hclose hp (Or.inl hu) hs).resolve_left hfirst
    have hlater : (ts ++ close :: rest) <:+: p ++ u :: (ts ++ close :: rest) :=
      ⟨p ++ [u], [], by simp⟩
    obtain ⟨bs, hbs, hmore⟩ := ih (sliceable_within hs hlater) hothers
    refine ⟨b :: bs, .cons hb hbs, ?_⟩
    rw [readParameters_append_comma hp hu hread, hmore, List.length_append, List.length_cons]
    simp only [Except.map, Nat.add_assoc, Nat.add_comm 1]

/-- If a parameter is read in part, the list cannot be read. -/
theorem readParameters_readInPart (hpart : ∃ p ∈ ps, ReadInPart text close p) :
    readParameters text (ts ++ close :: rest) = .error .otherForm := by
  induction h with
  | nil =>
    obtain ⟨p, hp, -⟩ := hpart
    cases hp
  | @last p hp =>
    obtain ⟨q, hq, hpart⟩ := hpart
    rw [List.mem_singleton.mp hq] at hpart
    exact readParameters_of_readInPart hclose hp (Or.inr hclose) hpart
  | @comma p ts u ps hp hu _ ih =>
    rw [List.append_assoc, List.cons_append] at hs ⊢
    rcases readParameter_append hclose hp (Or.inl hu) hs with hfirst | ⟨b, hb, hread⟩
    · exact readParameters_of_readInPart hclose hp (Or.inl hu) hfirst
    · have hlater : (ts ++ close :: rest) <:+: p ++ u :: (ts ++ close :: rest) :=
        ⟨p ++ [u], [], by simp⟩
      obtain ⟨q, hq, hpart⟩ := hpart
      have hothers : q ∈ ps := by
        rcases List.mem_cons.mp hq with rfl | hq
        · exact absurd hpart hb.not_readInPart
        · exact hq
      have hmore := ih (sliceable_within hs hlater) ⟨q, hothers, hpart⟩
      rw [readParameters_append_comma hp hu hread, hmore]
      rfl

end Lists

end CallContract.Source
