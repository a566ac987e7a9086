import CallContract.Proofs.Prefix
import CallContract.Proofs.Source.Pattern

/-!
# The brackets of what is read

Readers count brackets or read them one by one; either way what a reader takes off the tokens is
balanced (`Balanced`). So the tokens of a text whose statements are read are balanced as a whole
(`balanced_of_statements`).
-/

namespace CallContract.Source

/-! ## Depth -/

/-- The depth of brackets after tokens; `none` if they close one that is not open. -/
def depthAfterAll? (depth : Nat) : List Token → Option Nat
  | [] => some depth
  | t :: ts => (depthAfter? depth t.lexeme).bind (depthAfterAll? · ts)

theorem depthAfterAll?_append : ∀ (d : Nat) (us vs : List Token),
    depthAfterAll? d (us ++ vs) = (depthAfterAll? d us).bind (depthAfterAll? · vs)
  | d, [], vs => rfl
  | d, t :: us, vs => by
    rw [List.cons_append, depthAfterAll?, depthAfterAll?]
    cases depthAfter? d t.lexeme with
    | none => rfl
    | some e => exact depthAfterAll?_append e us vs

/-- Inside more brackets a lexeme does to the depth what it does outside. -/
theorem depthAfter?_add {d e : Nat} {l : Lexeme} (h : depthAfter? d l = some e) (m : Nat) :
    depthAfter? (d + m) l = some (e + m) := by
  unfold depthAfter? at h ⊢
  split at h
  · rename_i ho
    cases h
    rw [if_pos ho, Nat.add_right_comm]
  rename_i ho
  rw [if_neg ho]
  split at h
  · rename_i hc
    rw [if_pos hc]
    cases d with
    | zero => cases h
    | succ d =>
      cases h
      rw [Nat.add_right_comm]
  · rename_i hc
    cases h
    rw [if_neg hc]

theorem depthAfterAll?_add : ∀ {ts : List Token} {d e : Nat}, depthAfterAll? d ts = some e →
    ∀ m, depthAfterAll? (d + m) ts = some (e + m)
  | [], d, e, h, m => by
    cases h
    rfl
  | t :: ts, d, e, h, m => by
    obtain ⟨c, hc, hts⟩ := Option.bind_eq_some_iff.mp h
    rw [depthAfterAll?, depthAfter?_add hc]
    exact depthAfterAll?_add hts m

/-- Only a closing bracket outside all brackets has no depth. -/
theorem depthAfter?_eq_none {d : Nat} {l : Lexeme} (h : depthAfter? d l = none) :
    d = 0 ∧ l.closes = true := by
  unfold depthAfter? at h
  split at h
  · cases h
  split at h
  · rename_i hc
    cases d with
    | zero => exact ⟨rfl, hc⟩
    | succ d => cases h
  · cases h

/-! ## Balanced tokens -/

/-- Tokens whose brackets are all opened and closed among them. -/
def Balanced (ts : List Token) : Prop := depthAfterAll? 0 ts = some 0

/-- The last of the tokens is no semicolon. -/
def EndsOpen (ts : List Token) : Prop := ∀ t ∈ ts.getLast?, t.lexeme ≠ .mark .semicolon

/-- Balanced tokens after which there is more of a statement. -/
structure Part (ts : List Token) : Prop where
  balanced : Balanced ts
  endsOpen : EndsOpen ts

/-- The rest of a bracket: tokens that close one more bracket than they open. -/
structure Closing (ts : List Token) : Prop where
  depth : depthAfterAll? 1 ts = some 0
  endsOpen : EndsOpen ts

theorem Part.nil : Part [] := ⟨rfl, fun _ h => by cases h⟩

theorem Balanced.append {us vs : List Token} (hu : Balanced us) (hv : Balanced vs) :
    Balanced (us ++ vs) := by
  rw [Balanced, depthAfterAll?_append, hu]
  exact hv

/-- Behind balanced tokens the depth is the same. -/
theorem Balanced.depth_append {us : List Token} (hu : Balanced us) (d : Nat) (vs : List Token) :
    depthAfterAll? d (us ++ vs) = depthAfterAll? d vs := by
  rw [depthAfterAll?_append, ← Nat.zero_add d, depthAfterAll?_add hu]
  rfl

theorem EndsOpen.singleton {t : Token} (h : t.lexeme ≠ .mark .semicolon) : EndsOpen [t] := by
  intro u hu
  have heq : some t = some u := hu
  rwa [← Option.some.inj heq]

theorem EndsOpen.append_of_ne_nil {vs : List Token} (hv : EndsOpen vs) (hne : vs ≠ [])
    (us : List Token) : EndsOpen (us ++ vs) := by
  intro t ht
  rw [List.getLast?_append, List.getLast?_eq_some_getLast hne, Option.some_or] at ht
  exact hv t (by rwa [List.getLast?_eq_some_getLast hne])

theorem EndsOpen.append {us vs : List Token} (hu : EndsOpen us) (hv : EndsOpen vs) :
    EndsOpen (us ++ vs) := by
  cases vs with
  | nil => rwa [List.append_nil]
  | cons v vs => exact hv.append_of_ne_nil (List.cons_ne_nil v vs) us

theorem Part.append {us vs : List Token} (hu : Part us) (hv : Part vs) : Part (us ++ vs) :=
  ⟨hu.balanced.append hv.balanced, hu.endsOpen.append hv.endsOpen⟩

theorem Closing.ne_nil {ts : List Token} (h : Closing ts) : ts ≠ [] := by
  rintro rfl
  exact absurd h.depth (by decide)

theorem Balanced.append_closing {us vs : List Token} (hu : Balanced us) (hv : Closing vs) :
    Closing (us ++ vs) :=
  ⟨by rw [hu.depth_append, hv.depth], hv.endsOpen.append_of_ne_nil hv.ne_nil us⟩

/-- A bracket and its rest. -/
theorem Closing.cons {t : Token} {ts : List Token} (h : Closing ts) (ht : t.lexeme.opens = true) :
    Part (t :: ts) := by
  refine ⟨?_, h.endsOpen.append_of_ne_nil h.ne_nil [t]⟩
  rw [Balanced, depthAfterAll?, depthAfter?, if_pos ht]
  exact h.depth

/-! ## Single tokens -/

/-- A lexeme that is neither a bracket nor a semicolon. -/
def Lexeme.IsPlain (l : Lexeme) : Prop :=
  l.opens = false ∧ l.closes = false ∧ l ≠ .mark .semicolon

theorem Lexeme.IsPlain.depthAfter? {l : Lexeme} (h : l.IsPlain) (d : Nat) :
    depthAfter? d l = some d := by
  simp [Source.depthAfter?, h.1, h.2.1]

theorem Lexeme.isPlain_word (name : String) : (Lexeme.word name).IsPlain :=
  ⟨rfl, rfl, by simp⟩

theorem Part.singleton {t : Token} (h : t.lexeme.IsPlain) : Part [t] := by
  refine ⟨?_, .singleton h.2.2⟩
  rw [Balanced, depthAfterAll?, h.depthAfter?]
  rfl

theorem Closing.singleton {t : Token} (h : t.lexeme.closes = true) : Closing [t] := by
  refine ⟨?_, .singleton fun hl => ?_⟩
  · cases hl : t.lexeme with
    | mark m =>
      rw [hl] at h
      rw [depthAfterAll?, hl]
      cases m <;> first | rfl | cases h
    | _ =>
      rw [hl] at h
      cases h
  · rw [hl] at h
    cases h

/-! ## What a reader takes -/

/-- A reader that takes `n` of the tokens takes some that have a property. -/
def Took (P : List Token → Prop) (ts : List Token) (n : Nat) : Prop :=
  n ≤ ts.length ∧ P (ts.take n)

section Took

variable {P Q R : List Token → Prop} {t : Token} {ts : List Token} {n m k : Nat}

theorem Took.imp (hPQ : ∀ us, P us → Q us) (h : Took P ts n) : Took Q ts n := ⟨h.1, hPQ _ h.2⟩

/-- One reader after another. -/
theorem Took.add (hPQ : ∀ {us vs}, P us → Q vs → R (us ++ vs)) (h : Took P ts n)
    (h' : Took Q (ts.drop n) m) (hk : k = n + m) : Took R ts k := by
  obtain ⟨hn, hP⟩ := h
  obtain ⟨hm, hQ⟩ := h'
  rw [List.length_drop] at hm
  refine ⟨by omega, ?_⟩
  rw [hk, List.take_add]
  exact hPQ hP hQ

theorem Took.part_add (h : Took Part ts n) (h' : Took Part (ts.drop n) m) :
    Took Part ts (n + m) := h.add Part.append h' rfl

theorem Took.balanced_add (h : Took Part ts n) (h' : Took Balanced (ts.drop n) m) :
    Took Balanced ts (n + m) := h.add (fun hu => hu.balanced.append) h' rfl

theorem Took.cons (hPQ : ∀ us, P us → Q (t :: us)) (h : Took P ts n) : Took Q (t :: ts) (n + 1) :=
  ⟨Nat.succ_le_succ h.1, hPQ _ h.2⟩

theorem Took.part_zero (ts : List Token) : Took Part ts 0 := ⟨Nat.zero_le _, Part.nil⟩

theorem Took.balanced_zero (ts : List Token) : Took Balanced ts 0 := ⟨Nat.zero_le _, rfl⟩

theorem Took.balanced (h : Took Part ts n) : Took Balanced ts n := h.imp fun _ => Part.balanced

theorem Took.part_cons (ht : t.lexeme.IsPlain) (h : Took Part ts n) : Took Part (t :: ts) (n + 1) :=
  h.cons fun _ hu => (Part.singleton ht).append hu

theorem Took.balanced_cons (ht : t.lexeme.IsPlain) (h : Took Balanced ts n) :
    Took Balanced (t :: ts) (n + 1) :=
  h.cons fun _ hu => (Part.singleton ht).balanced.append hu

theorem Took.closing_cons (ht : t.lexeme.IsPlain) (h : Took Closing ts n) :
    Took Closing (t :: ts) (n + 1) :=
  h.cons fun _ hu => (Part.singleton ht).balanced.append_closing hu

theorem Took.open_cons (ht : t.lexeme.opens = true) (h : Took Closing ts n) :
    Took Part (t :: ts) (n + 1) :=
  h.cons fun _ hu => hu.cons ht

theorem Took.closing_one (ht : t.lexeme.closes = true) : Took Closing (t :: ts) 1 :=
  ⟨by simp, Closing.singleton ht⟩

/-- A list whose first part is followed by a comma and the other parts. -/
theorem Took.comma_closing {u : Token} {s : List Token} (h : Took Balanced ts n)
    (hs : ts.drop n = u :: s) (hu : u.lexeme = .mark .comma) (h' : Took Closing s m)
    (hk : k = n + 1 + m) : Took Closing ts k := by
  have hrest : Took Closing (u :: s) (m + 1) := h'.closing_cons (hu ▸ ⟨rfl, rfl, by decide⟩)
  exact h.add Balanced.append_closing (hs ▸ hrest) (by omega)

/-- A list whose only part is followed by the closing bracket. -/
theorem Took.part_closing {u : Token} {s : List Token} (h : Took Balanced ts n)
    (hs : ts.drop n = u :: s) (hu : u.lexeme.closes = true) (hk : k = n + 1) :
    Took Closing ts k := by
  have hrest : Took Closing (u :: s) 1 := .closing_one hu
  exact h.add Balanced.append_closing (hs ▸ hrest) hk

end Took

/-! ## Patterns -/

variable {text : List Char}

/-- A default value takes the tokens up to the depth at which it started. -/
theorem depth_of_defaultLength? {d n : Nat} {ts : List Token} (h : defaultLength? d ts = some n) :
    n ≤ ts.length ∧ depthAfterAll? d (ts.take n) = some 0 := by
  fun_induction defaultLength? d ts generalizing n with
  | case1 => cases h
  | case2 d t ts hd =>
    cases h
    exact ⟨Nat.zero_le _, by rw [(depthAfter?_eq_none hd).1]; rfl⟩
  | case3 d t ts e he hcomma =>
    cases h
    exact ⟨Nat.zero_le _, by rw [hcomma.1]; rfl⟩
  | case4 d t ts e he hcomma ih =>
    obtain ⟨m, hm, rfl⟩ := Option.map_eq_some_iff.mp h
    obtain ⟨hlen, hdepth⟩ := ih hm
    refine ⟨Nat.succ_le_succ hlen, ?_⟩
    rw [List.take_succ_cons, depthAfterAll?, he]
    exact hdepth

/-- A parameter that is kept as text takes the tokens up to the depth at which it started. -/
theorem depth_of_parameterLength? {d n : Nat} {ts : List Token}
    (h : parameterLength? d ts = some n) :
    n ≤ ts.length ∧ depthAfterAll? d (ts.take n) = some 0 := by
  fun_induction parameterLength? d ts generalizing n with
  | case1 => cases h
  | case2 d t ts hend =>
    cases h
    exact ⟨Nat.zero_le _, by rw [hend.1]; rfl⟩
  | case3 => cases h
  | case4 d t ts hend e he ih =>
    obtain ⟨m, hm, rfl⟩ := Option.map_eq_some_iff.mp h
    obtain ⟨hlen, hdepth⟩ := ih hm
    refine ⟨Nat.succ_le_succ hlen, ?_⟩
    rw [List.take_succ_cons, depthAfterAll?, he]
    exact hdepth

theorem took_readDefault {ts : List Token} {d : DefaultExpr} {n : Nat}
    (h : readDefault text ts = .ok (d, n)) : Took Balanced ts n := by
  unfold readDefault at h
  split at h
  · cases h
  · cases h
  · rename_i m _ hm
    obtain ⟨e, _, heq⟩ := eq_ok_of_map_eq h
    cases heq
    exact depth_of_defaultLength? hm

theorem took_withDefault {ts : List Token} {p q : Pattern} {n m : Nat}
    (h : withDefault text p n ts = .ok (q, m)) : ∃ j, m = n + j ∧ Took Balanced ts j := by
  unfold withDefault at h
  split at h
  · rename_i t r
    split at h
    · rename_i ht
      obtain ⟨⟨d, j⟩, hd, heq⟩ := eq_ok_of_map_eq h
      cases heq
      have hplain : t.lexeme.IsPlain := ht ▸ ⟨rfl, rfl, by decide⟩
      exact ⟨j + 1, by omega, (took_readDefault hd).balanced_cons hplain⟩
    · cases h
      exact ⟨0, rfl, .balanced_zero _⟩
  · cases h
    exact ⟨0, rfl, .balanced_zero _⟩

/-- A token that is a key is no bracket. -/
theorem isPlain_of_propertyKey {t : Token} {k : PropertyKey} (h : propertyKey text t = .ok k) :
    t.lexeme.IsPlain := by
  unfold propertyKey at h
  split at h
  · rename_i hl
    exact hl ▸ ⟨rfl, rfl, by simp⟩
  · rename_i hl
    exact hl ▸ ⟨rfl, rfl, by simp⟩
  · rename_i hl
    exact hl ▸ ⟨rfl, rfl, by simp⟩
  · cases h

mutual

theorem took_readTarget : ∀ (ts : List Token) {p : Pattern} {n : Nat},
    readTarget text ts = .ok (p, n) → Took Balanced ts n
  | [], _, _, h => by
    rw [readTarget] at h
    cases h
  | t :: r, p, n, h => by
    rw [readTarget] at h
    split at h
    · rename_i hl
      cases h
      exact ((Took.part_zero r).part_cons (hl ▸ Lexeme.isPlain_word _)).balanced
    · rename_i hl
      split at h
      · cases h
      · rename_i hps
        cases h
        exact ((took_readProperties r hps).open_cons (hl ▸ rfl)).balanced
    · rename_i hl
      split at h
      · cases h
      · rename_i hes
        cases h
        exact ((took_readElements r hes).open_cons (hl ▸ rfl)).balanced
    · cases h
termination_by ts => 3 * ts.length

theorem took_readPattern : ∀ (ts : List Token) {p : Pattern} {n : Nat},
    readPattern text ts = .ok (p, n) → Took Balanced ts n
  | [], _, _, h => by
    rw [readPattern] at h
    cases h
  | t :: r, p, n, h => by
    rw [readPattern] at h
    split at h
    · rename_i hl
      split at h
      · cases h
      · rename_i hq
        cases h
        exact (took_readTarget r hq).balanced_cons (hl ▸ ⟨rfl, rfl, by decide⟩)
    · split at h
      · cases h
      · rename_i hq
        obtain ⟨j, hj, hd⟩ := took_withDefault h
        exact (took_readTarget (t :: r) hq).add Balanced.append hd hj
termination_by ts => 3 * ts.length + 1

theorem took_readProperties : ∀ (ts : List Token) {ps : List PropertyPattern} {n : Nat},
    readProperties text ts = .ok (ps, n) → Took Closing ts n
  | [], _, _, h => by
    rw [readProperties] at h
    cases h
  | t :: r, ps, n, h => by
    rw [readProperties] at h
    split at h
    · rename_i hl
      cases h
      exact .closing_one (hl ▸ rfl)
    · split at h
      · cases h
      · rename_i k hp
        have hfirst := took_readProperty t r hp
        split at h
        · cases h
        · rename_i u s hs
          have hlt : s.length < r.length := length_lt_of_drop_eq_cons hs
          split at h
          · rename_i hu
            split at h
            · cases h
            · rename_i hqs
              cases h
              exact hfirst.comma_closing hs hu (took_readProperties s hqs) (by omega)
          split at h
          · rename_i hu
            cases h
            exact hfirst.part_closing hs (hu ▸ rfl) (by omega)
          · cases h
termination_by ts => 3 * ts.length + 2
decreasing_by all_goals (simp only [List.length_cons]; omega)

theorem took_readProperty (t : Token) : ∀ (ts : List Token) {p : PropertyPattern} {n : Nat},
    readProperty text t ts = .ok (p, n) → Took Balanced (t :: ts) (n + 1)
  | ts, p, n, h => by
    rw [readProperty.eq_def] at h
    split at h
    · rename_i hl
      split at h
      · cases h
      · rename_i hq
        cases h
        exact (took_readTarget ts hq).balanced_cons (hl ▸ ⟨rfl, rfl, by decide⟩)
    split at h
    · cases h
    · rename_i key hkey
      have hplain := isPlain_of_propertyKey hkey
      split at h
      · split at h
        · cases h
          exact ((Took.part_zero []).part_cons hplain).balanced
        · cases h
      · rename_i u r
        split at h
        · rename_i hu
          split at h
          · cases h
          · rename_i hq
            cases h
            have hvalue := (took_readPattern r hq).balanced_cons (t := u)
              (hu ▸ ⟨rfl, rfl, by decide⟩)
            exact hvalue.balanced_cons hplain
        · split at h
          · split at h
            · cases h
            · rename_i hq
              cases h
              obtain ⟨j, hj, hd⟩ := took_withDefault hq
              rw [hj, Nat.zero_add]
              exact hd.balanced_cons hplain
          · cases h
termination_by ts => 3 * ts.length + 2

theorem took_readElements : ∀ (ts : List Token) {es : List (Option Pattern)} {n : Nat},
    readElements text ts = .ok (es, n) → Took Closing ts n
  | [], _, _, h => by
    rw [readElements] at h
    cases h
  | t :: r, es, n, h => by
    rw [readElements] at h
    split at h
    · rename_i hl
      cases h
      exact .closing_one (hl ▸ rfl)
    split at h
    · rename_i hl
      split at h
      · cases h
      · rename_i hes
        cases h
        exact (took_readElements r hes).closing_cons (hl ▸ ⟨rfl, rfl, by decide⟩)
    · split at h
      · cases h
      · rename_i k hp
        have hfirst := took_readPattern (t :: r) hp
        split at h
        · cases h
        · rename_i u s hs
          have hlt : s.length ≤ r.length := Nat.le_of_lt_succ (length_lt_of_drop_eq_cons hs)
          split at h
          · rename_i hu
            split at h
            · cases h
            · rename_i hqs
              cases h
              exact hfirst.comma_closing hs hu (took_readElements s hqs) (by omega)
          split at h
          · rename_i hu
            cases h
            exact hfirst.part_closing hs (hu ▸ rfl) (by omega)
          · cases h
termination_by ts => 3 * ts.length + 2
decreasing_by all_goals (simp only [List.length_cons]; omega)

end

/-! ## Parameter lists -/

theorem took_readParameter {ts : List Token} {p : Pattern} {n : Nat}
    (h : readParameter text ts = .ok (p, n)) : Took Balanced ts n := by
  unfold readParameter at h
  split at h
  · rename_i hp
    cases h
    exact took_readPattern ts hp
  · cases h
  · split at h
    · cases h
    · rename_i m hm
      obtain ⟨s, _, heq⟩ := eq_ok_of_map_eq h
      cases heq
      exact depth_of_parameterLength? hm

theorem took_readParameters : ∀ (ts : List Token) {ps : List Pattern} {n : Nat},
    readParameters text ts = .ok (ps, n) → Took Closing ts n
  | [], _, _, h => by
    rw [readParameters] at h
    cases h
  | t :: r, ps, n, h => by
    rw [readParameters] at h
    split at h
    · rename_i hl
      cases h
      exact .closing_one (hl ▸ rfl)
    · split at h
      · cases h
      · rename_i k hp
        have hfirst := took_readParameter hp
        split at h
        · cases h
        · rename_i u s hs
          have hlt : s.length ≤ r.length := Nat.le_of_lt_succ (length_lt_of_drop_eq_cons hs)
          split at h
          · rename_i hu
            split at h
            · cases h
            · rename_i hqs
              cases h
              exact hfirst.comma_closing hs hu (took_readParameters s hqs) (by omega)
          split at h
          · rename_i hu
            cases h
            exact hfirst.part_closing hs (hu ▸ rfl) (by omega)
          · cases h
termination_by ts => ts.length

theorem took_readParameterList {ts : List Token} {ps : List Pattern} {n : Nat}
    (h : readParameterList text ts = .ok (ps, n)) : Took Part ts n := by
  unfold readParameterList at h
  split at h
  · cases h
  split at h
  · rename_i hl
    obtain ⟨⟨qs, m⟩, hqs, heq⟩ := eq_ok_of_map_eq h
    cases heq
    exact (took_readParameters _ hqs).open_cons (hl ▸ rfl)
  · cases h

/-! ## Statements -/

variable {size : Nat}

/-- What is left of a block ends with its closing brace. -/
theorem depth_of_blockRest? {d n : Nat} {ts : List Token} (h : blockRest? d ts = some n) :
    n ≤ ts.length ∧ depthAfterAll? (d + 1) (ts.take n) = some 0 ∧ EndsOpen (ts.take n) := by
  fun_induction blockRest? d ts generalizing n with
  | case1 => cases h
  | case2 d t ts hd =>
    cases h
    obtain ⟨rfl, hc⟩ := depthAfter?_eq_none hd
    exact ⟨by simp, (Closing.singleton hc).depth, (Closing.singleton hc).endsOpen⟩
  | case3 d t ts e he ih =>
    obtain ⟨m, hm, rfl⟩ := Option.map_eq_some_iff.mp h
    obtain ⟨hlen, hdepth, hend⟩ := ih hm
    have hne : ts.take m ≠ [] := by
      intro hnil
      rw [hnil] at hdepth
      cases hdepth
    refine ⟨Nat.succ_le_succ hlen, ?_, hend.append_of_ne_nil hne [t]⟩
    rw [List.take_succ_cons, depthAfterAll?, depthAfter?_add he]
    exact hdepth

theorem took_blockTokens {ts : List Token} {n : Nat} (h : blockTokens ts = .ok n) :
    Took Part ts n := by
  unfold blockTokens at h
  split at h
  · cases h
  split at h
  · rename_i hl
    split at h
    · cases h
    · rename_i m hm
      cases h
      obtain ⟨hlen, hdepth, hend⟩ := depth_of_blockRest? hm
      have hrest : Took Closing _ m := ⟨hlen, hdepth, hend⟩
      exact hrest.open_cons (hl ▸ rfl)
  · cases h

/-- A statement is skipped to a place outside all brackets. -/
theorem depth_of_skipStatement {d n : Nat} {ts : List Token}
    (h : skipStatement size d ts = .ok n) :
    n ≤ ts.length ∧ depthAfterAll? d (ts.take n) = some 0 := by
  fun_induction skipStatement size d ts generalizing n with
  | case1 =>
    cases h
    exact ⟨Nat.le_refl _, rfl⟩
  | case2 => cases h
  | case3 d t ts ht =>
    cases h
    obtain ⟨ht, rfl⟩ := ht
    refine ⟨by simp, ?_⟩
    rw [List.take_succ_cons, depthAfterAll?, ht]
    rfl
  | case4 => cases h
  | case5 d t ts ht e he hend =>
    cases h
    refine ⟨by simp, ?_⟩
    rw [List.take_succ_cons, depthAfterAll?, he, hend.1]
    rfl
  | case6 => cases h
  | case7 d t ts ht e he hend m hm ih =>
    cases h
    obtain ⟨hlen, hdepth⟩ := ih hm
    refine ⟨Nat.succ_le_succ hlen, ?_⟩
    rw [List.take_succ_cons, depthAfterAll?, he]
    exact hdepth

theorem pos_of_skipStatement {d n : Nat} {t : Token} {ts : List Token}
    (h : skipStatement size d (t :: ts) = .ok n) : 0 < n := by
  unfold skipStatement at h
  split at h
  · cases h
    exact Nat.one_pos
  split at h
  · cases h
  split at h
  · cases h
    exact Nat.one_pos
  split at h
  · cases h
  · cases h
    exact Nat.succ_pos _

theorem took_statementTokens {ts : List Token} {n : Nat} (h : statementTokens size ts = .ok n) :
    Took Balanced ts n := by
  unfold statementTokens at h
  split at h
  · cases h
  · rename_i hm
    cases h
    exact depth_of_skipStatement hm

/-! ## Single tokens of a statement -/

section Single

variable {ts : List Token}

theorem took_of_startsWithMark {m : Mark} (h : startsWithMark m ts = true)
    (hm : (Lexeme.mark m).IsPlain) : Took Part ts 1 := by
  cases ts with
  | nil => cases h
  | cons t ts => exact (Took.part_zero ts).part_cons (by rwa [eq_of_beq h])

theorem took_of_startsWithWord {w : String} (h : startsWithWord w ts = true) :
    Took Part ts 1 := by
  cases ts with
  | nil => cases h
  | cons t ts => exact (Took.part_zero ts).part_cons (eq_of_beq h ▸ Lexeme.isPlain_word w)

theorem took_of_firstWord? (h : (firstWord? ts).isSome = true) : Took Part ts 1 := by
  cases ts with
  | nil => cases h
  | cons t ts =>
    refine (Took.part_zero ts).part_cons ?_
    cases hl : t.lexeme with
    | word name => exact Lexeme.isPlain_word name
    | _ =>
      rw [firstWord?, hl] at h
      cases h

theorem took_oneIf {b : Bool} (h : b = true → Took Part ts 1) : Took Part ts (oneIf b) := by
  cases b with
  | false => exact .part_zero ts
  | true => exact h rfl

theorem took_asyncTokens (ts : List Token) : Took Part ts (asyncTokens ts) := by
  unfold asyncTokens
  dsimp only
  split
  · rename_i h
    exact took_of_startsWithWord h.1
  · exact .part_zero ts

end Single

/-! ## Functions -/

section Functions

variable {ts : List Token} {n : Nat}

theorem took_finishTokens {last : Option Token} (h : finishTokens size last ts = .ok n) :
    Took Balanced ts n := by
  unfold finishTokens at h
  split at h
  · rename_i hmark
    cases h
    cases ts with
    | nil => cases hmark
    | cons t ts =>
      refine ⟨by simp, ?_⟩
      rw [List.take_succ_cons, Balanced, depthAfterAll?, eq_of_beq hmark]
      rfl
  split at h
  · cases h
    exact .balanced_zero ts
  · exact took_statementTokens h

theorem took_bodyTokens (h : bodyTokens size ts = .ok n) : Took Balanced ts n := by
  obtain ⟨m, hm, h⟩ := eq_ok_of_bind_eq h
  obtain ⟨k, hk, h⟩ := eq_ok_of_bind_eq h
  cases h
  exact (took_blockTokens hm).balanced_add (took_finishTokens hk)

theorem took_arrowTokens (h : arrowTokens size ts = .ok n) : Took Balanced ts n := by
  unfold arrowTokens at h
  split at h
  · rename_i hmark
    obtain ⟨m, hm, rfl⟩ := eq_ok_of_map_eq h
    have harrow : Took Part ts 1 := took_of_startsWithMark hmark ⟨rfl, rfl, by decide⟩
    rw [Nat.add_comm]
    refine harrow.balanced_add ?_
    unfold arrowBodyTokens at hm
    split at hm
    · exact took_bodyTokens hm
    · exact took_statementTokens hm
  · cases h

/-- The word, the star and the name in front of the parameters of a function. -/
theorem took_functionHead (hf : startsWithWord "function" ts = true) :
    Took Part ts (1 + oneIf (startsWithMark .star (ts.drop 1))) :=
  (took_of_startsWithWord hf).part_add
    (took_oneIf fun hs => took_of_startsWithMark hs ⟨rfl, rfl, by decide⟩)

theorem took_readFunctionValue {ps : List Pattern}
    (h : readFunctionValue text size ts = .ok (ps, n)) : Took Balanced ts n := by
  unfold readFunctionValue at h
  have hasync := took_asyncTokens ts
  simp only at h
  split at h
  · rename_i hf
    obtain ⟨⟨qs, k⟩, hk, h⟩ := eq_ok_of_bind_eq h
    obtain ⟨m, hm, h⟩ := eq_ok_of_bind_eq h
    cases h
    have hname := (took_functionHead hf).part_add (took_oneIf took_of_firstWord?)
    have hparams := hname.part_add (took_readParameterList hk)
    exact hasync.balanced_add (hparams.balanced_add (took_bodyTokens hm))
  split at h
  · rename_i hname
    obtain ⟨m, hm, h⟩ := eq_ok_of_bind_eq h
    cases h
    have hname := took_of_firstWord? (Option.isSome_of_eq_some hname)
    exact hasync.balanced_add (hname.balanced_add (took_arrowTokens hm))
  · obtain ⟨⟨qs, k⟩, hk, h⟩ := eq_ok_of_bind_eq h
    obtain ⟨m, hm, h⟩ := eq_ok_of_bind_eq h
    cases h
    have hparams := took_readParameterList hk
    exact hasync.balanced_add (hparams.balanced_add (took_arrowTokens hm))

theorem took_readDeclared {ps : List Pattern} (h : readDeclared text ts = .ok (ps, n)) :
    Took Part ts n := by
  obtain ⟨⟨qs, k⟩, hk, h⟩ := eq_ok_of_bind_eq h
  obtain ⟨m, hm, h⟩ := eq_ok_of_bind_eq h
  cases h
  exact (took_readParameterList hk).part_add (took_blockTokens hm)

theorem took_exportWords (ts : List Token) : Took Part ts (oneIf (startsWithWord "export" ts) +
    oneIf (startsWithWord "export" ts && startsWithWord "default" (ts.drop 1))) := by
  cases he : startsWithWord "export" ts with
  | false => exact .part_zero ts
  | true => exact (took_of_startsWithWord he).part_add (took_oneIf took_of_startsWithWord)

theorem took_asyncWord (ts : List Token) : Took Part ts
    (oneIf (startsWithWord "async" ts && startsWithWord "function" (ts.drop 1))) :=
  took_oneIf fun h => took_of_startsWithWord (Bool.and_eq_true_iff.mp h).1

/-- The word, the name and the equals sign in front of a value. -/
theorem took_binding (hb : (firstWord? ts).isSome = true)
    (hn : (firstWord? (ts.drop 1)).isSome = true)
    (ha : startsWithMark .assign (ts.drop 2) = true) : Took Part ts 3 := by
  have hwords : Took Part ts 2 := (took_of_firstWord? hb).part_add (took_of_firstWord? hn)
  exact hwords.part_add (took_of_startsWithMark ha ⟨rfl, rfl, by decide⟩)

/-- A function that is read takes tokens, and balanced ones. -/
theorem took_readFunction {f : String × List Pattern} (h : readFunction text size ts = .ok (f, n)) :
    0 < n ∧ Took Balanced ts n := by
  have hexport := took_exportWords ts
  unfold readFunction at h
  dsimp only at h
  generalize oneIf (startsWithWord "export" ts) + oneIf (_ && _) = x at hexport h
  have hasync := took_asyncWord (ts.drop x)
  generalize oneIf (startsWithWord "async" (ts.drop x) && _) = a at hasync h
  have hall : ∀ {m}, Took Balanced ((ts.drop x).drop a) m → Took Balanced ts (x + a + m) := by
    intro m hm
    rw [Nat.add_assoc]
    exact hexport.balanced_add (hasync.balanced_add hm)
  split at h
  · rename_i hf
    have hhead := took_functionHead hf
    split at h
    · rename_i name hname
      obtain ⟨⟨qs, k⟩, hk, h⟩ := eq_ok_of_bind_eq h
      cases h
      have hname := hhead.part_add (took_of_firstWord? (Option.isSome_of_eq_some hname))
      exact ⟨by omega, hall (hname.part_add (took_readDeclared hk)).balanced⟩
    · split at h
      · obtain ⟨⟨qs, k⟩, hk, h⟩ := eq_ok_of_bind_eq h
        cases h
        exact ⟨by omega, hall (hhead.part_add (took_readDeclared hk)).balanced⟩
      · cases h
  · split at h
    · rename_i hb hn
      split at h
      · rename_i hbind
        obtain ⟨⟨qs, k⟩, hk, h⟩ := eq_ok_of_bind_eq h
        cases h
        have hbinding := took_binding (Option.isSome_of_eq_some hb) (Option.isSome_of_eq_some hn)
          hbind.2.2
        exact ⟨by omega, hall (hbinding.balanced_add (took_readFunctionValue hk))⟩
      · cases h
    · cases h

theorem took_readStatement {t : Token} {f : Option (String × List Pattern)}
    (h : readStatement text size (t :: ts) = .ok (f, n)) : Took Balanced (t :: ts) (n + 1) := by
  unfold readStatement at h
  split at h
  · rename_i hf
    cases h
    obtain ⟨hpos, htook⟩ := took_readFunction hf
    rwa [Nat.sub_add_cancel hpos]
  · cases h
  · split at h
    · cases h
    · rename_i hm
      cases h
      rw [Nat.sub_add_cancel (pos_of_skipStatement hm)]
      exact depth_of_skipStatement hm

/-- The tokens of statements that are read are balanced. -/
theorem balanced_of_statements {ss : List Statement} (h : statements text size ts = .ok ss) :
    Balanced ts := by
  fun_induction statements text size ts generalizing ss with
  | case1 => rfl
  | case2 t r ht ih =>
    rw [Balanced, depthAfterAll?, ht]
    exact ih h
  | case3 => cases h
  | case4 => cases h
  | case5 t r ht f n hf ss' hs ih =>
    have htook := (took_readStatement hf).2.append (ih hs)
    rwa [List.take_succ_cons, List.cons_append, List.take_append_drop] at htook

end Functions

end CallContract.Source
