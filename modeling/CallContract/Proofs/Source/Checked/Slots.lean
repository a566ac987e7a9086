import CallContract.Proofs.Source.Brackets
import CallContract.Proofs.Source.Checked.Access
import CallContract.Source.Checked.Module

/-!
# Places between tokens

What is read by slot, seen as tokens : `RestAt tokens pos ts` says that of `tokens` the tokens
`ts` are left at slot `pos`. There the current slot exists, and so do the slots so many tokens
further on. A reader by slots that starts at such a place does what a reader of the tokens does if
it ends at one (`Reads`, `Skips`).
-/

namespace CallContract.Source.Checked

/-! ## Places -/

/-- What is left of the tokens at a slot. -/
def RestAt (tokens : List Token) (pos : Nat) (ts : List Token) : Prop :=
  ∃ front, tokens = front ++ ts ∧ pos = front.length

section RestAt

variable {tokens ts : List Token} {t : Token} {pos n : Nat}

theorem RestAt.start (tokens : List Token) : RestAt tokens 0 tokens := ⟨[], rfl, rfl⟩

theorem RestAt.drop (h : RestAt tokens pos ts) (hn : n ≤ ts.length) :
    RestAt tokens (pos + n) (ts.drop n) := by
  obtain ⟨front, rfl, rfl⟩ := h
  refine ⟨front ++ ts.take n, by rw [List.append_assoc, List.take_append_drop], ?_⟩
  rw [List.length_append, List.length_take, Nat.min_eq_left hn]

theorem RestAt.tail (h : RestAt tokens pos (t :: ts)) : RestAt tokens (pos + 1) ts :=
  h.drop (n := 1) (Nat.succ_le_succ (Nat.zero_le _))

theorem RestAt.add_length (h : RestAt tokens pos ts) : pos + ts.length = tokens.length := by
  obtain ⟨front, rfl, rfl⟩ := h
  rw [List.length_append]

theorem RestAt.lt (h : RestAt tokens pos (t :: ts)) : pos < tokens.length := by
  rw [← h.add_length, List.length_cons]
  omega

theorem RestAt.further (h : RestAt tokens pos (t :: ts)) {next : Nat} (hnext : pos < next) :
    further? tokens.length pos next = some ⟨next, Nat.sub_lt_sub_left h.lt hnext⟩ :=
  further?_of_lt h.lt hnext

theorem RestAt.within (h : RestAt tokens pos ts) (n : Nat) : ts.take n <:+: tokens := by
  obtain ⟨front, rfl, rfl⟩ := h
  exact ⟨front, ts.drop n, by rw [List.append_assoc, List.take_append_drop]⟩

theorem getElem?_slots (tokens : List Token) {pos : Nat} (h : pos ≤ tokens.length) :
    (slots tokens)[pos]? = some (tokens.drop pos).head? := by
  rw [slots, List.head?_drop]
  rcases Nat.lt_or_eq_of_le h with hlt | rfl
  · rw [List.getElem?_append_left (by rwa [List.length_map]), List.getElem?_map,
      List.getElem?_eq_getElem hlt]
    rfl
  · rw [List.getElem?_append_right (by rw [List.length_map]), List.length_map, Nat.sub_self,
      List.getElem?_eq_none (Nat.le_refl _)]
    rfl

theorem RestAt.current (h : RestAt tokens pos ts) : current tokens pos = some ts.head? := by
  obtain ⟨front, rfl, rfl⟩ := h
  rw [Checked.current, getElem?_slots _ (by simp), List.drop_left]

theorem RestAt.peek (h : RestAt tokens pos ts) (n : Nat) :
    peek tokens pos n = some (ts.drop n).head? := by
  obtain ⟨front, rfl, rfl⟩ := h
  have hlast : (slots (front ++ ts)).length - 1 = (front ++ ts).length := by simp [slots]
  rw [Checked.peek, subtract?_of_le (by rw [slots, List.length_append]; exact Nat.le_add_left ..),
    hlast]
  refine (getElem?_slots _ (Nat.min_le_right ..)).trans (congrArg some ?_)
  rcases Nat.le_total n ts.length with hle | hle
  · rw [Nat.min_eq_left (by simpa using hle), ← List.drop_drop, List.drop_left]
  · rw [Nat.min_eq_right (by simpa using hle), List.drop_eq_nil_of_le hle,
      List.drop_eq_nil_of_le (Nat.le_refl _)]

theorem RestAt.between (h : RestAt tokens pos ts) (hn : n ≤ ts.length) :
    between tokens pos (pos + n) = some (ts.take n) := by
  obtain ⟨front, rfl, rfl⟩ := h
  rw [Checked.between, if_pos ⟨Nat.le_add_right .., by simpa using hn⟩, List.take_append,
    List.take_of_length_le (by simp), Nat.add_sub_cancel_left, List.drop_left]

theorem RestAt.before (h : RestAt tokens pos ts) (hn : n ≤ ts.length) (hpos : 0 < n) :
    before tokens (pos + n) = (ts.take n).getLast? := by
  obtain ⟨front, rfl, rfl⟩ := h
  rw [Checked.before, subtract?_of_le (by omega), List.getLast?_eq_getElem?, List.length_take,
    Nat.min_eq_left hn, List.getElem?_take_of_lt (by omega)]
  refine (List.getElem?_append_right (by omega)).trans ?_
  rw [show front.length + n - 1 - front.length = n - 1 by omega]

/-- What was gone over before a slot ends with a token. -/
theorem RestAt.before_cons (h : RestAt tokens pos (t :: ts)) (hn : n ≤ ts.length) :
    Checked.before tokens (pos + (n + 1)) = some ((ts.take n).getLast?.getD t) := by
  rw [h.before (Nat.succ_le_succ hn) (Nat.succ_pos n), List.take_succ_cons, List.getLast?_cons]

theorem RestAt.fail {α : Type} (h : RestAt tokens pos ts) :
    (fail tokens pos : Checked Unit α) = of (.error ()) := by
  rw [Checked.fail, h.current]
  rfl

@[simp] theorem isMark_some {m : Mark} : isMark m (some t) = true ↔ t.lexeme = .mark m := by
  simp [isMark]

@[simp] theorem isMark_none {m : Mark} : isMark m none = false := rfl

theorem isMark_head? (m : Mark) (ts : List Token) : isMark m ts.head? = startsWithMark m ts := by
  cases ts <;> rfl

theorem isWord_head? (w : String) (ts : List Token) : isWord w ts.head? = startsWithWord w ts := by
  cases ts <;> rfl

theorem word?_head? (ts : List Token) : word? ts.head? = firstWord? ts := by
  cases ts <;> rfl

end RestAt

/-! ## Readers that agree -/

/-- A reader by slots refuses what a reader of the tokens `ts` refuses, and from slot `pos` on gives
what that gives and stops as many slots later. -/
def Reads {α : Type} (pos : Nat) (ts : List Token) (m : Checked Unit (α × Nat))
    (r : Except Setback (α × Nat)) : Prop :=
  (m = of (.error ()) ∧ r = .error .otherForm) ∨
    ∃ a n, n ≤ ts.length ∧ m = of (.ok (a, pos + n)) ∧ r = .ok (a, n)

/-- The same for readers that only go over tokens. -/
def Skips (pos : Nat) (ts : List Token) (m : Checked Unit Nat) (r : Except Setback Nat) : Prop :=
  (m = of (.error ()) ∧ r = .error .otherForm) ∨
    ∃ n, n ≤ ts.length ∧ m = of (.ok (pos + n)) ∧ r = .ok n

section Agreement

variable {α : Type} {pos n : Nat} {ts : List Token}

theorem Reads.refused : Reads (α := α) pos ts (of (.error ())) (.error .otherForm) :=
  .inl ⟨rfl, rfl⟩

theorem Reads.ok {a : α} {stop : Nat} (hn : n ≤ ts.length) (hstop : stop = pos + n) :
    Reads pos ts (of (.ok (a, stop))) (.ok (a, n)) :=
  .inr ⟨a, n, hn, by rw [hstop], rfl⟩

theorem Skips.refused : Skips pos ts (of (.error ())) (.error .otherForm) := .inl ⟨rfl, rfl⟩

theorem Skips.ok {stop : Nat} (hn : n ≤ ts.length) (hstop : stop = pos + n) :
    Skips pos ts (of (.ok stop)) (.ok n) :=
  .inr ⟨n, hn, by rw [hstop], rfl⟩

variable {β : Type} {tokens us : List Token} {start : Nat}

/-- What is read from a later slot on is read from slot `pos` on, with more tokens. -/
theorem Reads.behind {m : Checked Unit (α × Nat)} {r : Except Setback (α × Nat)}
    (h : Reads start us m r) (hat : RestAt tokens pos ts) (hlater : RestAt tokens start us)
    (f : α → β) (count : Nat → Nat) (hcount : ∀ n, pos + count n = start + n) :
    Reads pos ts
      (do
        let (a, stop) ← m
        pure (f a, stop))
      (do
        let (a, n) ← r
        .ok (f a, count n)) := by
  rcases h with ⟨rfl, rfl⟩ | ⟨a, n, hn, rfl, rfl⟩
  · exact .refused
  · have hlen := hat.add_length
    have hlater := hlater.add_length
    have hstop := hcount n
    exact .ok (by omega) hstop.symm

theorem Skips.behind {m : Checked Unit Nat} {r : Except Setback Nat} (h : Skips start us m r)
    (hat : RestAt tokens pos ts) (hlater : RestAt tokens start us) (b : β) (count : Nat → Nat)
    (hcount : ∀ n, pos + count n = start + n) :
    Reads pos ts
      (do
        let stop ← m
        pure (b, stop))
      (do
        let n ← r
        .ok (b, count n)) := by
  rcases h with ⟨rfl, rfl⟩ | ⟨n, hn, rfl, rfl⟩
  · exact .refused
  · have hlen := hat.add_length
    have hlater := hlater.add_length
    have hstop := hcount n
    exact .ok (by omega) hstop.symm

end Agreement

/-! ## Brackets -/

section Brackets

variable {tokens : List Token}

theorem depthAfter_eq (d : Nat) (l : Lexeme) : depthAfter d l = depthAfter? d l := by
  unfold depthAfter depthAfter?
  split
  · rfl
  split
  · cases d <;> rfl
  · rfl

/-- Where a count of tokens from slot `pos` on leads. -/
def stopAfter (pos : Nat) : Option Nat → Checked Unit Nat
  | none => of (.error ())
  | some n => of (.ok (pos + n))

theorem stopAfter_succ (pos : Nat) (length : Option Nat) :
    stopAfter (pos + 1) length = stopAfter pos (length.map (· + 1)) := by
  cases length with
  | none => rfl
  | some n => rw [Option.map_some, stopAfter, stopAfter, Nat.add_assoc, Nat.add_comm 1]

theorem depthAfter?_of_closes {l : Lexeme} (h : l.closes = true) : depthAfter? 0 l = none := by
  cases l with
  | mark m => cases m <;> first | rfl | cases h
  | _ => cases h

theorem depthAfter?_one_of_closes {l : Lexeme} (h : l.closes = true) :
    depthAfter? 1 l = some 0 := by
  cases l with
  | mark m => cases m <;> first | rfl | cases h
  | _ => cases h

theorem not_closes_of_depthAfter? {d e : Nat} {l : Lexeme} (h : depthAfter? d l = some e) :
    ¬(d = 0 ∧ l.closes = true) := by
  rintro ⟨rfl, hc⟩
  rw [depthAfter?_of_closes hc] at h
  cases h

theorem defaultEnd_eq {ts : List Token} {d pos : Nat} (h : RestAt tokens pos ts) :
    defaultEnd tokens d pos = stopAfter pos (defaultLength? d ts) := by
  fun_induction defaultLength? d ts generalizing pos with
  | case1 =>
    rw [defaultEnd, h.current]
    exact h.fail
  | case2 d t ts hd =>
    obtain ⟨hzero, hc⟩ := depthAfter?_eq_none hd
    rw [defaultEnd, h.current]
    exact if_pos ⟨hzero, .inl hc⟩
  | case3 d t ts e he hcomma =>
    rw [defaultEnd, h.current]
    exact if_pos ⟨hcomma.1, .inr hcomma.2⟩
  | case4 d t ts e he hcomma ih =>
    have hgoes : ¬(d = 0 ∧ (t.lexeme.closes = true ∨ t.lexeme = .mark .comma)) := by
      rintro ⟨hzero, hc | hc⟩
      · exact not_closes_of_depthAfter? he ⟨hzero, hc⟩
      · exact hcomma ⟨hzero, hc⟩
    rw [defaultEnd, h.current, ← stopAfter_succ, ← ih h.tail]
    simp only [List.head?_cons, lift_bind, if_neg hgoes, depthAfter_eq, he,
      h.further (Nat.lt_succ_self pos)]

theorem parameterEnd_eq {ts : List Token} {d pos : Nat} (h : RestAt tokens pos ts) :
    parameterEnd tokens d pos = stopAfter pos (parameterLength? d ts) := by
  fun_induction parameterLength? d ts generalizing pos with
  | case1 =>
    rw [parameterEnd, h.current]
    exact h.fail
  | case2 d t ts hend =>
    rw [parameterEnd, h.current]
    exact if_pos hend
  | case3 d t ts hend hd =>
    rw [parameterEnd, h.current]
    simp only [List.head?_cons, lift_bind, if_neg hend, if_pos (depthAfter?_eq_none hd)]
    exact h.fail
  | case4 d t ts hend e he ih =>
    rw [parameterEnd, h.current, ← stopAfter_succ, ← ih h.tail]
    simp only [List.head?_cons, lift_bind, if_neg hend, if_neg (not_closes_of_depthAfter? he),
      depthAfter_eq, he, h.further (Nat.lt_succ_self pos)]

/-- Inside the opening brace of a block the depth is one more than that of what is left. -/
theorem blockEnd_eq {ts : List Token} {d pos : Nat} (h : RestAt tokens pos ts) :
    blockEnd tokens (d + 1) pos = stopAfter pos (blockRest? d ts) := by
  fun_induction blockRest? d ts generalizing pos with
  | case1 =>
    rw [blockEnd, h.current]
    exact h.fail
  | case2 d t ts hd =>
    obtain ⟨rfl, hc⟩ := depthAfter?_eq_none hd
    rw [blockEnd, h.current]
    simp only [List.head?_cons, lift_bind, depthAfter_eq, depthAfter?_one_of_closes hc]
    exact if_pos ⟨hc, trivial⟩
  | case3 d t ts e he ih =>
    rw [blockEnd, h.current, ← stopAfter_succ, ← ih h.tail]
    simp only [List.head?_cons, lift_bind, depthAfter_eq, depthAfter?_add he 1,
      h.further (Nat.lt_succ_self pos)]
    exact if_neg fun hend => Nat.succ_ne_zero e hend.2

end Brackets

end CallContract.Source.Checked
