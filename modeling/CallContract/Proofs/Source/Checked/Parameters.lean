import CallContract.Proofs.Path.Above
import CallContract.Proofs.Source.Checked.Slots

/-!
# Parameters, read by slot

The readers of parameters by slot do what the readers of the tokens do, if every stretch of text
between tokens exists (`Sliceable`). A parameter that cannot be read is read again from the slot
where it started, so nothing is lost by the attempt (`parameter_reads`).
-/

namespace CallContract.Source.Checked

variable {text : List Char} {tokens : List Token}

/-! ## Texts of tokens -/

/-- Tokens that follow each other in `tokens` have a text. -/
def Sliceable (text : List Char) (tokens : List Token) : Prop :=
  ∀ us, us <:+: tokens → ∃ s, textOf text us = .ok s

theorem spelling_of_textOf {ts : List Token} {s : String} (h : textOf text ts = .ok s) :
    spelling text ts = some s := by
  match ts with
  | [] => cases h; rfl
  | first :: ts =>
    obtain ⟨last, hlast⟩ : ∃ last, (first :: ts).getLast? = some last :=
      ⟨_, List.getLast?_cons⟩
    rw [textOf, hlast] at h
    have hindex : (first :: ts)[(first :: ts).length - 1]? = some last := by
      rw [← List.getLast?_eq_getElem?, hlast]
    rw [spelling, subtract?_of_le (by simp)]
    simp only [Option.bind_eq_bind, Option.bind_some, hindex]
    simp only [List.head?_cons] at h
    split at h
    · rename_i u hu
      cases h
      rw [hu]
      rfl
    · cases h

/-! ## Default values -/

theorem radix?_cases (s : List Char) :
    (∃ radix ds, radixDigits? s = some (radix, ds) ∧ radix? s = some radix ∧
      rest? s 2 = some ds) ∨ radixDigits? s = none ∧ radix? s = none := by
  fun_cases radixDigits? s with
  | case1 ds => exact .inl ⟨16, ds, rfl, rfl, LeftAt.rest? ⟨['0', 'x'], rfl, rfl⟩⟩
  | case2 ds => exact .inl ⟨8, ds, rfl, rfl, LeftAt.rest? ⟨['0', 'o'], rfl, rfl⟩⟩
  | case3 ds => exact .inl ⟨2, ds, rfl, rfl, LeftAt.rest? ⟨['0', 'b'], rfl, rfl⟩⟩
  | case4 s hx ho hb =>
    have hnot (m : Char) (h : ∀ ds, s = '0' :: m :: ds → False) :
        ¬Text.startsWith ['0', m] s = true := by
      rw [Text.startsWith_iff]
      exact fun ⟨ds, hds⟩ => h ds hds
    refine .inr ⟨rfl, ?_⟩
    rw [radix?, if_neg (hnot 'x' hx), if_neg (hnot 'o' ho), if_neg (hnot 'b' hb)]

theorem literalDouble_eq (digits : List Char) :
    literalDouble digits = some (literalDouble? digits) := by
  unfold literalDouble literalDouble?
  simp only
  generalize ((Text.beforeEnd? ['n'] (digits.filter (· ≠ '_'))).getD
    (digits.filter (· ≠ '_'))).map Char.toLower = s
  rcases radix?_cases s with ⟨radix, ds, hdigits, hradix, hrest⟩ | ⟨hdigits, hradix⟩
  · rw [hdigits, hradix]
    simp only [hrest, Option.map_some]
  · rw [hdigits, hradix]

theorem number_eq (digits : String) (negative : Bool) :
    number digits negative = some ((numberLiteral? digits.toList negative).map .number) := by
  rw [number, literalDouble_eq, numberLiteral?, Option.map_some, Option.map_map]
  rfl

theorem literal_eq (ts : List Token) : literal ts = some (literal? ts) := by
  fun_cases literal ts with
  | case1 t digits hl => rw [number_eq, literal?, hl]
  | case2 t hl => rfl
  | case3 sign t digits hminus hl => rw [number_eq, literal?, hminus, hl]
  | case4 sign t h =>
    rw [literal?]
    split
    · rename_i digits hminus hl
      exact (h digits hminus hl).elim
    · rfl
  | case5 ts hone htwo => rw [literal?.eq_3 ts hone htwo]

theorem classify_eq {ts : List Token} {s : String} (h : textOf text ts = .ok s) :
    ∃ d, classify text ts = some d ∧ classifyDefault text ts = .ok d := by
  have hother : (spelling text ts).map DefaultExpr.other = some (.other s) := by
    rw [spelling_of_textOf h]
    rfl
  rw [classify, classifyDefault, literal_eq, h]
  simp only [Option.bind_eq_bind, Option.bind_some, hother]
  cases literal? ts with
  | some value => exact ⟨_, rfl, rfl⟩
  | none =>
    cases ts with
    | nil => exact ⟨_, rfl, rfl⟩
    | cons t r =>
      cases hl : t.lexeme with
      | word name =>
        cases r with
        | nil =>
          simp only [hl]
          exact ⟨_, rfl, rfl⟩
        | cons op l =>
          simp only [hl, literal_eq, Option.bind_some]
          by_cases hnullish : op.lexeme = .mark .nullish
          · simp only [hnullish]
            cases literal? l <;> exact ⟨_, rfl, rfl⟩
          · simp only [if_neg hnullish]
            split
            · rename_i hop _
              exact (hnullish hop).elim
            · exact ⟨_, rfl, rfl⟩
      | _ =>
        simp only [hl]
        exact ⟨_, rfl, rfl⟩

section Readers

variable {ts : List Token} {pos : Nat}

theorem defaultValue_reads (hs : Sliceable text tokens) (h : RestAt tokens pos ts) :
    Reads pos ts (defaultValue text tokens pos) (readDefault text ts) := by
  rw [defaultValue, defaultEnd_eq h, readDefault]
  match hn : defaultLength? 0 ts with
  | none => exact .refused
  | some 0 =>
    have hnone : Checked.between tokens pos pos = some [] := h.between (n := 0) (Nat.zero_le _)
    simp only [stopAfter, of_ok_bind, Nat.add_zero, hnone, lift_bind, List.isEmpty_nil, if_true,
      h.fail]
    exact .refused
  | some (n + 1) =>
    have hlen : n + 1 ≤ ts.length := (depth_of_defaultLength? hn).1
    have hne : ¬(ts.take (n + 1)).isEmpty = true := by
      rw [List.isEmpty_iff_length_eq_zero, List.length_take]
      omega
    obtain ⟨s, htext⟩ := hs _ (h.within (n + 1))
    obtain ⟨d, hd, hd'⟩ := classify_eq htext
    simp only [stopAfter, of_ok_bind, h.between hlen, lift_bind, hd, hd']
    rw [if_neg hne]
    exact .ok hlen rfl

theorem applyDefault_reads (hs : Sliceable text tokens) (p : Pattern) {n : Nat}
    (h : RestAt tokens pos ts) (hn : n ≤ ts.length) :
    Reads pos ts (applyDefault text tokens p (pos + n)) (withDefault text p n (ts.drop n)) := by
  have hnext := h.drop hn
  rw [applyDefault, hnext.current, lift_bind]
  match hts : ts.drop n with
  | [] => exact .ok hn rfl
  | t :: r =>
    have hlength := congrArg List.length hts
    rw [List.length_drop, List.length_cons] at hlength
    rw [hts] at hnext
    simp only [withDefault, List.head?_cons, isMark_some]
    split
    · rcases defaultValue_reads hs hnext.tail with ⟨hm, hr⟩ | ⟨d, m, hm', hm, hr⟩
      · rw [hm, hr]
        exact .refused
      · rw [hm, hr]
        exact .ok (by omega) (by omega)
    · exact .ok hn rfl

/-! ## Patterns -/

/-- What a key is, and that it refuses nothing else. -/
theorem key_cases (hs : Sliceable text tokens) {t : Token} {r : List Token}
    (h : RestAt tokens pos (t :: r)) :
    (key text tokens pos = of (.error ()) ∧ propertyKey text t = .error .otherForm) ∨
      ∃ k, key text tokens pos = of (.ok k) ∧ propertyKey text t = .ok k := by
  rw [key, h.current, propertyKey]
  simp only [List.head?_cons, lift_bind]
  cases hl : t.lexeme with
  | word name => exact .inr ⟨_, rfl, rfl⟩
  | number digits => exact .inr ⟨_, rfl, rfl⟩
  | string value =>
    obtain ⟨s, htext⟩ := hs [t] (h.within 1)
    obtain ⟨u, hu, rfl⟩ : ∃ u, stretch? text t.start t.stop = some u ∧ s = String.ofList u := by
      rw [textOf] at htext
      simp only [List.head?_cons, List.getLast?_singleton] at htext
      split at htext
      · rename_i u hu
        cases htext
        exact ⟨u, hu, rfl⟩
      · cases htext
    rw [htext, hu]
    exact .inr ⟨_, rfl, rfl⟩
  | _ => exact .inl ⟨h.fail, rfl⟩

/-- Behind an item of a list there is a comma and the other items, or the closing bracket. -/
theorem others_reads {α : Type} {others : Checked Unit (List α × Nat)}
    {result : Except Setback (List α × Nat)} {close : Mark} {x : α} {n next : Nat} {u : Token}
    {s : List Token} (h : RestAt tokens next (u :: s)) (hnext : next = pos + n)
    (hlen : n < ts.length) (hothers : u.lexeme = .mark .comma → Reads pos ts others result) :
    Reads pos ts
      (do
        if isMark .comma (← current tokens next) then others
        else
          let stop ← expect tokens close next
          pure ([x], stop))
      (if u.lexeme = .mark .comma then result
      else if u.lexeme = .mark close then .ok ([x], n + 1)
      else .error .otherForm) := by
  rw [h.current, expect, h.current]
  simp only [List.head?_cons, lift_bind, isMark_some]
  split
  · rename_i hcomma
    exact hothers hcomma
  split
  · exact .ok hlen (by omega)
  · rw [h.fail]
    exact .refused

/-- Behind an item of a list the tokens may end. -/
theorem open_reads {α : Type} {others : Checked Unit (List α × Nat)} {close : Mark} {x : α}
    {next : Nat} (h : RestAt tokens next []) :
    Reads pos ts
      (do
        if isMark .comma (← current tokens next) then others
        else
          let stop ← expect tokens close next
          pure ([x], stop))
      (.error .otherForm) := by
  rw [h.current, expect, h.current]
  simp only [List.head?_nil, lift_bind, isMark_none, Bool.false_eq_true, if_false, h.fail]
  exact .refused

mutual

theorem target_reads (hs : Sliceable text tokens) : ∀ (ts : List Token) {pos : Nat},
    RestAt tokens pos ts → Reads pos ts (target text tokens pos) (readTarget text ts)
  | [], pos, h => by
    rw [target, h.current, readTarget, List.head?_nil, lift_bind, h.fail]
    exact .refused
  | t :: r, pos, h => by
    rw [target, h.current, readTarget]
    simp only [List.head?_cons, lift_bind]
    cases hl : t.lexeme with
    | word name => exact .ok (by simp) rfl
    | mark m =>
      cases m with
      | braceOpen =>
        simp only [h.further (Nat.lt_succ_self pos), lift_bind]
        rcases properties_reads hs r h.tail with ⟨hm, hr⟩ | ⟨ps, n, hn, hm, hr⟩
        · rw [hm, hr]
          exact .refused
        · rw [hm, hr]
          exact .ok (Nat.succ_le_succ hn) (by omega)
      | bracketOpen =>
        simp only [h.further (Nat.lt_succ_self pos), lift_bind]
        rcases elements_reads hs r h.tail with ⟨hm, hr⟩ | ⟨es, n, hn, hm, hr⟩
        · rw [hm, hr]
          exact .refused
        · rw [hm, hr]
          exact .ok (Nat.succ_le_succ hn) (by omega)
      | _ =>
        rw [h.fail]
        exact .refused
    | _ =>
      rw [h.fail]
      exact .refused
termination_by ts => 3 * ts.length

theorem pattern_reads (hs : Sliceable text tokens) : ∀ (ts : List Token) {pos : Nat},
    RestAt tokens pos ts → Reads pos ts (pattern text tokens pos) (readPattern text ts)
  | [], pos, h => by
    rw [pattern, h.current, readPattern, List.head?_nil, lift_bind, if_neg (by simp), target,
      h.current, List.head?_nil, lift_bind, h.fail]
    exact .refused
  | t :: r, pos, h => by
    rw [pattern, h.current, readPattern]
    simp only [List.head?_cons, lift_bind, isMark_some, h.further (Nat.lt_succ_self pos)]
    split
    · rcases target_reads hs r h.tail with ⟨hm, hr⟩ | ⟨p, n, hn, hm, hr⟩
      · rw [hm, hr]
        exact .refused
      · rw [hm, hr]
        exact .ok (Nat.succ_le_succ hn) (by omega)
    · rcases target_reads hs (t :: r) h with ⟨hm, hr⟩ | ⟨p, n, hn, hm, hr⟩
      · rw [hm, hr]
        exact .refused
      · rw [hm, hr]
        exact applyDefault_reads hs p h hn
termination_by ts => 3 * ts.length + 1

theorem properties_reads (hs : Sliceable text tokens) : ∀ (ts : List Token) {pos : Nat},
    RestAt tokens pos ts → Reads pos ts (properties text tokens pos) (readProperties text ts)
  | [], pos, h => by
    rw [properties, h.current, readProperties, List.head?_nil, lift_bind, if_neg (by simp),
      property, h.current, List.head?_nil, lift_bind, if_neg (by simp), key, h.current,
      List.head?_nil, lift_bind, h.fail]
    exact .refused
  | t :: r, pos, h => by
    rw [properties, h.current, readProperties]
    simp only [List.head?_cons, lift_bind, isMark_some]
    split
    · exact .ok (by simp) rfl
    · rcases property_reads hs t r h with ⟨hm, hr⟩ | ⟨p, n, hn, hm, hr⟩
      · rw [hm, hr]
        exact .refused
      · rw [hm, hr]
        have hnext := h.tail.drop hn
        simp only [of_ok_bind]
        split
        · rename_i hrest
          rw [hrest] at hnext
          exact open_reads hnext
        · rename_i u s hrest
          have hlt : s.length < r.length := length_lt_of_drop_eq_cons hrest
          have hlength := congrArg List.length hrest
          rw [List.length_drop, List.length_cons] at hlength
          rw [hrest] at hnext
          refine others_reads hnext (Nat.add_assoc pos 1 n) (by rw [List.length_cons]; omega)
            fun _ => ?_
          have hfurther : pos < pos + 1 + n + 1 := by omega
          simp only [h.further hfurther, lift_bind]
          rcases properties_reads hs s hnext.tail with ⟨hm, hr⟩ | ⟨ps, m, hm', hm, hr⟩
          · rw [hm, hr]
            exact .refused
          · rw [hm, hr]
            exact .ok (by rw [List.length_cons]; omega) (by omega)
termination_by ts => 3 * ts.length + 2
decreasing_by all_goals (simp only [List.length_cons]; omega)

/-- The count of a property leaves out its first token. -/
theorem property_reads (hs : Sliceable text tokens) (t : Token) : ∀ (ts : List Token) {pos : Nat},
    RestAt tokens pos (t :: ts) →
      Reads (pos + 1) ts (property text tokens pos) (readProperty text t ts)
  | ts, pos, h => by
    rw [property, h.current, readProperty.eq_def]
    simp only [List.head?_cons, lift_bind, isMark_some, h.further (Nat.lt_succ_self pos)]
    split
    · rcases target_reads hs ts h.tail with ⟨hm, hr⟩ | ⟨p, n, hn, hm, hr⟩
      · rw [hm, hr]
        exact .refused
      · rw [hm, hr]
        exact .ok hn rfl
    rcases key_cases hs h with ⟨hm, hr⟩ | ⟨k, hm, hr⟩
    · rw [hm, hr]
      exact .refused
    rw [hm, hr]
    simp only [of_ok_bind, h.tail.current, lift_bind]
    by_cases hts : ts = []
    · subst hts
      simp only [List.head?_nil, isMark_none, Bool.false_eq_true, if_false]
      cases k with
      | ident name =>
        rcases applyDefault_reads hs (.ident name) h.tail (Nat.zero_le _)
          with ⟨-, hr⟩ | ⟨p, n, hn, hm, hr⟩
        · cases hr
        · cases hr
          rw [Nat.add_zero] at hm
          simp only [hm]
          exact .ok hn rfl
      | _ =>
        simp only [h.tail.fail]
        exact .refused
    obtain ⟨u, r, hts⟩ := List.exists_cons_of_ne_nil hts
    have hlt : r.length < ts.length := by
      rw [hts]
      exact Nat.lt_succ_self _
    rw [hts] at h ⊢
    have hfurther : pos < pos + 2 := by omega
    simp only [List.head?_cons, isMark_some, h.further hfurther, lift_bind]
    split
    · rcases pattern_reads hs r h.tail.tail with ⟨hm, hr⟩ | ⟨p, n, hn, hm, hr⟩
      · rw [hm, hr]
        exact .refused
      · rw [hm, hr]
        exact .ok (Nat.succ_le_succ hn) (by omega)
    · cases k with
      | ident name =>
        rcases applyDefault_reads hs (.ident name) h.tail (Nat.zero_le _)
          with ⟨hm, hr⟩ | ⟨p, n, hn, hm, hr⟩
        · rw [Nat.add_zero] at hm
          rw [List.drop_zero] at hr
          simp only [hm, hr]
          exact .refused
        · rw [Nat.add_zero] at hm
          rw [List.drop_zero] at hr
          simp only [hm, hr]
          exact .ok hn rfl
      | _ =>
        simp only [h.tail.fail]
        exact .refused
termination_by ts => 3 * ts.length + 2
decreasing_by all_goals omega

theorem elements_reads (hs : Sliceable text tokens) : ∀ (ts : List Token) {pos : Nat},
    RestAt tokens pos ts → Reads pos ts (elements text tokens pos) (readElements text ts)
  | [], pos, h => by
    rw [elements, h.current, readElements]
    simp only [List.head?_nil, lift_bind, isMark_none, Bool.false_eq_true, if_false]
    rw [pattern, h.current, List.head?_nil, lift_bind, if_neg (by simp), target, h.current,
      List.head?_nil, lift_bind, h.fail]
    exact .refused
  | t :: r, pos, h => by
    rw [elements, h.current, readElements]
    simp only [List.head?_cons, lift_bind, isMark_some, h.further (Nat.lt_succ_self pos)]
    split
    · exact .ok (by simp) rfl
    split
    · rcases elements_reads hs r h.tail with ⟨hm, hr⟩ | ⟨es, n, hn, hm, hr⟩
      · rw [hm, hr]
        exact .refused
      · rw [hm, hr]
        exact .ok (Nat.succ_le_succ hn) (by omega)
    · rcases pattern_reads hs (t :: r) h with ⟨hm, hr⟩ | ⟨p, n, hn, hm, hr⟩
      · rw [hm, hr]
        exact .refused
      · rw [hm, hr]
        have hnext := h.drop hn
        simp only [of_ok_bind]
        split
        · rename_i hrest
          rw [hrest] at hnext
          exact open_reads hnext
        · rename_i u s hrest
          have hlt : s.length ≤ r.length := Nat.le_of_lt_succ (length_lt_of_drop_eq_cons hrest)
          have hlength := congrArg List.length hrest
          simp only [List.length_drop, List.length_cons] at hlength
          rw [hrest] at hnext
          refine others_reads hnext rfl (by rw [List.length_cons]; omega) fun _ => ?_
          have hfurther : pos < pos + n + 1 := by omega
          simp only [h.further hfurther, lift_bind]
          rcases elements_reads hs s hnext.tail with ⟨hm, hr⟩ | ⟨es, m, hm', hm, hr⟩
          · rw [hm, hr]
            exact .refused
          · rw [hm, hr]
            exact .ok (by rw [List.length_cons]; omega) (by omega)
termination_by ts => 3 * ts.length + 2
decreasing_by all_goals (simp only [List.length_cons]; omega)

end

/-! ## Parameter lists -/

theorem parameter_reads (hs : Sliceable text tokens) (h : RestAt tokens pos ts) :
    Reads pos ts (parameter text tokens pos) (readParameter text ts) := by
  rw [parameter, readParameter]
  rcases pattern_reads hs ts h with ⟨hm, hr⟩ | ⟨p, n, hn, hm, hr⟩
  · rw [hm, hr, attempt_of, of_ok_bind, parameterEnd_eq h]
    cases hn : parameterLength? 0 ts with
    | none => exact .refused
    | some n =>
      have hlen : n ≤ ts.length := (depth_of_parameterLength? hn).1
      obtain ⟨s, htext⟩ := hs _ (h.within n)
      simp only [stopAfter, of_ok_bind, h.between hlen, lift_bind, spelling_of_textOf htext, htext]
      exact .ok hlen rfl
  · rw [hm, hr]
    exact .ok hn rfl

theorem parameters_reads (hs : Sliceable text tokens) : ∀ (ts : List Token) {pos : Nat},
    RestAt tokens pos ts → Reads pos ts (parameters text tokens pos) (readParameters text ts)
  | [], pos, h => by
    rw [parameters, h.current, readParameters]
    simp only [List.head?_nil, lift_bind, isMark_none, Bool.false_eq_true, if_false]
    rcases parameter_reads hs h with ⟨hm, hr⟩ | ⟨p, n, hn, hm, hr⟩
    · rw [hm]
      exact .refused
    · rw [readParameter, readPattern] at hr
      cases hr
  | t :: r, pos, h => by
    rw [parameters, h.current, readParameters]
    simp only [List.head?_cons, lift_bind, isMark_some]
    split
    · exact .ok (by simp) rfl
    · rcases parameter_reads hs h with ⟨hm, hr⟩ | ⟨p, n, hn, hm, hr⟩
      · rw [hm, hr]
        exact .refused
      · rw [hm, hr]
        have hnext := h.drop hn
        simp only [of_ok_bind]
        split
        · rename_i hrest
          rw [hrest] at hnext
          exact open_reads hnext
        · rename_i u s hrest
          have hlt : s.length ≤ r.length := Nat.le_of_lt_succ (length_lt_of_drop_eq_cons hrest)
          have hlength := congrArg List.length hrest
          simp only [List.length_drop, List.length_cons] at hlength
          rw [hrest] at hnext
          refine others_reads hnext rfl (by rw [List.length_cons]; omega) fun _ => ?_
          have hfurther : pos < pos + n + 1 := by omega
          simp only [h.further hfurther, lift_bind]
          rcases parameters_reads hs s hnext.tail with ⟨hm, hr⟩ | ⟨ps, m, hm', hm, hr⟩
          · rw [hm, hr]
            exact .refused
          · rw [hm, hr]
            exact .ok (by rw [List.length_cons]; omega) (by omega)
termination_by ts => ts.length

theorem parameterList_reads (hs : Sliceable text tokens) (h : RestAt tokens pos ts) :
    Reads pos ts (parameterList text tokens pos) (readParameterList text ts) := by
  rw [parameterList, expect, h.current]
  match ts, h with
  | [], h =>
    simp only [List.head?_nil, lift_bind, isMark_none, Bool.false_eq_true, if_false, h.fail]
    exact .refused
  | t :: r, h =>
    simp only [readParameterList, List.head?_cons, lift_bind, isMark_some]
    split
    · rcases parameters_reads hs r h.tail with ⟨hm, hr⟩ | ⟨ps, n, hn, hm, hr⟩
      · simp only [pure_bind, hm, hr]
        exact .refused
      · simp only [pure_bind, hm, hr]
        exact .ok (Nat.succ_le_succ hn) (by omega)
    · rw [h.fail]
      exact .refused

end Readers

end CallContract.Source.Checked
