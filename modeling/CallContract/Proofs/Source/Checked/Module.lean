import CallContract.Proofs.Source.Checked.Parameters
import CallContract.Proofs.Source.Checked.Tokens

/-!
# Functions and statements, read by slot

A statement that is gone over by slot ends where `skipStatement` says (`statementEnd_eq`), and
the readers of functions by slot do what the readers of the tokens do (`function_reads`). One
that cannot be read as a function is gone over again from the slot where it started. Between the
tokens of a text every stretch exists (`sliceable_of_tokenize`), so a text is read by byte offsets
and token numbers as it is read by its characters and tokens (`readModule_eq`). With that none of
the checks on the way fails, for any text (`checks_hold`).
-/

namespace CallContract.Source.Checked

variable {text : List Char} {tokens : List Token}

/-! ## Skipping -/

section Skipping

variable {ts : List Token} {pos size : Nat}

theorem skipBlock_skips (h : RestAt tokens pos ts) :
    Skips pos ts (skipBlock tokens pos) (blockTokens ts) := by
  rw [skipBlock, h.current, lift_bind]
  match ts, h with
  | [], h =>
    rw [List.head?_nil, isMark_none, if_neg Bool.false_ne_true, h.fail]
    exact .refused
  | t :: r, h =>
    simp only [blockTokens, List.head?_cons, isMark_some]
    split
    · rename_i hl
      have hopen : depthAfter 0 t.lexeme = some 1 := hl ▸ rfl
      have hcloses : ¬(t.lexeme.closes = true ∧ 1 = 0) := fun hend => Nat.one_ne_zero hend.2
      rw [blockEnd, h.current]
      simp only [List.head?_cons, lift_bind, hopen, if_neg hcloses,
        h.further (Nat.lt_succ_self pos)]
      rw [blockEnd_eq (d := 0) h.tail]
      cases hn : blockRest? 0 r with
      | none => exact .refused
      | some n => exact .ok (Nat.succ_le_succ (depth_of_blockRest? hn).1) (by omega)
    · rw [h.fail]
      exact .refused

/-- In front of the first slot there is no token; everywhere else a statement ends as it does
between the token there and the tokens that are left. -/
theorem atBoundary_eq {last : Token} (h : RestAt tokens pos ts) (hpos : 0 < pos)
    (hlast : before tokens pos = some last) :
    atBoundary tokens pos = some (endsHere last ts) := by
  rw [atBoundary, h.current]
  match ts with
  | [] => rfl
  | next :: r =>
    have hiff : (pos = 0 ∨ continuesStatement next.lexeme = true) ↔
        continuesStatement next.lexeme = true := or_iff_right (Nat.ne_of_gt hpos)
    simp only [List.head?_cons, Option.bind_eq_bind, Option.bind_some, hiff, hlast, endsHere]
    split
    · rfl
    · split <;> rfl

theorem RestAt.failAt {α : Type} (h : RestAt tokens pos ts) (cause : Cause) :
    (failAt tokens size pos cause : Checked Error α) =
      of (.error ⟨(ts.head?.map Token.start).getD size, cause⟩) := by
  rw [Checked.failAt, h.current]
  rfl

/-- Behind a token that ends no statement by itself, one may end at a line break. -/
theorem statementEnd_cons {d e : Nat} {t : Token} (h : RestAt tokens pos (t :: ts))
    (ht : ¬(t.lexeme = .mark .semicolon ∧ d = 0)) (he : depthAfter? d t.lexeme = some e) :
    statementEnd tokens size d pos =
      if e = 0 ∧ endsHere t ts = true then of (.ok (pos + 1))
      else statementEnd tokens size e (pos + 1) := by
  have hboundary := atBoundary_eq h.tail (Nat.succ_pos pos) (h.before_cons (Nat.zero_le _))
  rw [statementEnd, h.current]
  simp only [List.head?_cons, lift_bind, if_neg (not_closes_of_depthAfter? he),
    if_neg fun hs => ht (And.symm hs), depthAfter_eq, he, h.further (Nat.lt_succ_self pos),
    hboundary]
  by_cases hzero : e = 0
  · simp only [hzero, if_true, true_and]
    rfl
  · simp only [hzero, if_false, false_and]

theorem statementEnd_eq {d : Nat} (h : RestAt tokens pos ts) :
    statementEnd tokens size d pos = of ((Source.skipStatement size d ts).map (pos + ·)) := by
  fun_induction Source.skipStatement size d ts generalizing pos with
  | case1 =>
    rw [statementEnd, h.current]
    rfl
  | case2 d hd =>
    rw [statementEnd, h.current]
    simp only [List.head?_nil, lift_bind, if_neg hd, h.failAt]
    rfl
  | case3 d t r ht =>
    have hcloses : ¬(d = 0 ∧ t.lexeme.closes = true) := by
      rw [ht.1]
      exact fun hend => Bool.false_ne_true hend.2
    rw [statementEnd, h.current]
    simp only [List.head?_cons, lift_bind, if_neg hcloses, if_pos ht.symm]
    rfl
  | case4 d t r ht hd =>
    rw [statementEnd, h.current]
    simp only [List.head?_cons, lift_bind, if_pos (depthAfter?_eq_none hd), h.failAt]
    rfl
  | case5 d t r ht e he hend =>
    rw [statementEnd_cons h ht he, if_pos hend]
    rfl
  | case6 d t r ht e he hend error herror ih =>
    rw [statementEnd_cons h ht he, if_neg hend, ih h.tail, herror]
    rfl
  | case7 d t r ht e he hend n hn ih =>
    rw [statementEnd_cons h ht he, if_neg hend, ih h.tail, hn, Except.map, Except.map,
      Nat.add_assoc, Nat.add_comm 1]

theorem skipStatement_skips (h : RestAt tokens pos ts) :
    Skips pos ts (skipStatement tokens size pos) (statementTokens size ts) := by
  rw [skipStatement, statementEnd_eq h, statementTokens]
  cases hn : Source.skipStatement size 0 ts with
  | error e => exact .refused
  | ok n => exact .ok (depth_of_skipStatement hn).1 rfl

theorem finishStatement_skips {last : Token} (h : RestAt tokens pos ts) (hpos : 0 < pos)
    (hlast : before tokens pos = some last) :
    Skips pos ts (finishStatement tokens size pos) (finishTokens size (some last) ts) := by
  rw [finishStatement, h.current, lift_bind, isMark_head?, atBoundary_eq h hpos hlast, lift_bind,
    finishTokens, Option.any_some]
  split
  · rename_i hmark
    have hne : ts ≠ [] := fun hnil => by rw [hnil] at hmark; cases hmark
    exact .ok (List.length_pos_of_ne_nil hne) rfl
  split
  · exact .ok (Nat.zero_le _) rfl
  · exact skipStatement_skips h

theorem pos_of_blockTokens {n : Nat} (h : blockTokens ts = .ok n) : 0 < n := by
  unfold blockTokens at h
  split at h
  · cases h
  split at h
  · split at h
    · cases h
    · cases h
      exact Nat.succ_pos _
  · cases h

theorem skipBody_skips (h : RestAt tokens pos ts) :
    Skips pos ts (skipBody tokens size pos) (bodyTokens size ts) := by
  rw [skipBody, bodyTokens]
  rcases skipBlock_skips h with ⟨hm, hr⟩ | ⟨n, hn, hm, hr⟩
  · rw [hm, hr]
    exact .refused
  · have hpos : 0 < n := pos_of_blockTokens hr
    have hne : ts.take n ≠ [] := List.ne_nil_of_length_pos (by rw [List.length_take]; omega)
    obtain ⟨last, hlast⟩ : ∃ last, (ts.take n).getLast? = some last :=
      ⟨_, List.getLast?_eq_some_getLast hne⟩
    have hfinish : Skips (pos + n) (ts.drop n) (finishStatement tokens size (pos + n))
        (finishTokens size (some last) (ts.drop n)) :=
      finishStatement_skips (h.drop hn) (Nat.add_pos_right pos hpos)
        ((h.before hn hpos).trans hlast)
    rw [hm, hr, of_ok_bind, ok_bind, hlast]
    rcases hfinish with ⟨hm, hr⟩ | ⟨k, hk, hm, hr⟩
    · rw [hm, hr]
      exact .refused
    · rw [hm, hr]
      rw [List.length_drop] at hk
      exact .ok (by omega) (Nat.add_assoc pos n k)

theorem skipArrow_skips (h : RestAt tokens pos ts) :
    Skips pos ts (skipArrow tokens size pos) (arrowTokens size ts) := by
  rw [skipArrow, h.current, lift_bind, isMark_head?, arrowTokens]
  match ts, h with
  | [], h => exact .refused
  | t :: r, h =>
    have hnext := h.tail
    have hbody : Skips (pos + 1) r
        (do
          if isMark .braceOpen (← current tokens (pos + 1)) then skipBody tokens size (pos + 1)
          else skipStatement tokens size (pos + 1))
        (arrowBodyTokens size r) := by
      rw [hnext.current, lift_bind, isMark_head?, arrowBodyTokens]
      split
      · exact skipBody_skips hnext
      · exact skipStatement_skips hnext
    split
    · rcases hbody with ⟨hm, hr⟩ | ⟨n, hn, hm, hr⟩
      · rw [hm, List.drop_one, List.tail_cons, hr]
        exact .refused
      · rw [hm, List.drop_one, List.tail_cons, hr]
        exact .ok (Nat.succ_le_succ hn) (Nat.add_right_comm pos 1 n)
    · exact .refused

end Skipping

/-! ## Words in front of functions -/

section Words

variable {ts : List Token} {pos : Nat}

theorem skipIf_eq (h : RestAt tokens pos ts) (condition : Option Token → Bool) :
    skipIf tokens condition pos = some (pos + oneIf (condition ts.head?)) := by
  rw [skipIf, h.current]
  cases hc : condition ts.head? <;> simp [hc, oneIf]

theorem exportWords_eq (h : RestAt tokens pos ts) :
    exportWords tokens pos =
      some (startsWithWord "export" ts && startsWithWord "default" (ts.drop 1),
        pos + (oneIf (startsWithWord "export" ts) +
          oneIf (startsWithWord "export" ts && startsWithWord "default" (ts.drop 1)))) := by
  rw [exportWords, h.current]
  simp only [Option.bind_eq_bind, Option.bind_some, isWord_head?]
  cases he : startsWithWord "export" ts with
  | false => rfl
  | true =>
    have hnext := h.drop (took_of_startsWithWord he).1
    rw [if_pos rfl, hnext.current, Option.bind_some, isWord_head?, Bool.true_and]
    cases startsWithWord "default" (ts.drop 1) <;> rfl

theorem asyncWord_eq (h : RestAt tokens pos ts) :
    asyncWord tokens pos =
      some (pos + oneIf (startsWithWord "async" ts && startsWithWord "function" (ts.drop 1))) := by
  rw [asyncWord, h.current, h.peek]
  simp only [Option.bind_eq_bind, Option.bind_some, isWord_head?]
  cases startsWithWord "async" ts <;> cases startsWithWord "function" (ts.drop 1) <;> rfl

theorem startsAsync_eq (h : RestAt tokens pos ts) :
    startsAsync tokens pos = some (startsWithWord "function" (ts.drop 1) ||
      startsWithMark .parenOpen (ts.drop 1) ||
        (firstWord? (ts.drop 1)).isSome && startsWithMark .arrow (ts.drop 2)) := by
  rw [startsAsync, h.peek, h.peek]
  simp only [Option.bind_eq_bind, Option.bind_some, Option.map_some, isWord_head?, isMark_head?,
    word?_head?]
  cases startsWithWord "function" (ts.drop 1) <;>
    cases startsWithMark .parenOpen (ts.drop 1) <;>
      cases (firstWord? (ts.drop 1)).isSome <;> rfl

theorem asyncValueWord_eq (h : RestAt tokens pos ts) :
    asyncValueWord tokens pos = some (pos + asyncTokens ts) := by
  rw [asyncValueWord, h.current, startsAsync_eq h, asyncTokens]
  simp only [Option.bind_eq_bind, Option.bind_some, isWord_head?, List.drop_drop]
  cases startsWithWord "async" ts <;> cases startsWithWord "function" (ts.drop 1) <;>
    cases startsWithMark .parenOpen (ts.drop 1) <;> cases (firstWord? (ts.drop 1)).isSome <;>
      cases startsWithMark .arrow (ts.drop 2) <;> rfl

end Words

/-! ## Functions -/

section Functions

variable {ts : List Token} {pos : Nat}

/-- Behind the word `function` a star may be gone over. -/
theorem skipStar_eq (h : RestAt tokens pos ts) (hf : startsWithWord "function" ts = true) :
    skipIf tokens (isMark .star) (pos + 1) =
      some (pos + (1 + oneIf (startsWithMark .star (ts.drop 1)))) := by
  rw [skipIf_eq (h.drop (took_of_startsWithWord hf).1), isMark_head?, Nat.add_assoc]

/-- Behind a name the arrow is looked for twice, behind parameters once. -/
theorem functionValue_reads (hs : Sliceable text tokens) (h : RestAt tokens pos ts) :
    Reads pos ts (functionValue text tokens pos) (readFunctionValue text (width text) ts) := by
  have hat := h.drop (took_asyncTokens ts).1
  rw [functionValue, asyncValueWord_eq h, lift_bind, hat.current, lift_bind, isWord_head?]
  unfold readFunctionValue
  dsimp only
  generalize ts.drop (asyncTokens ts) = us at hat ⊢
  generalize asyncTokens ts = a at hat ⊢
  split
  · rename_i hf
    have hhead := took_functionHead hf
    rw [skipStar_eq hat hf, lift_bind]
    generalize 1 + oneIf (startsWithMark .star (us.drop 1)) = s at hhead ⊢
    have hname := hhead.part_add (took_oneIf took_of_firstWord?)
    rw [skipIf_eq (hat.drop hhead.1), lift_bind, word?_head?, Nat.add_assoc (pos + a)]
    generalize s + oneIf (firstWord? (us.drop s)).isSome = w at hname ⊢
    have hparams := hat.drop hname.1
    rcases parameterList_reads hs hparams with ⟨hm, hr⟩ | ⟨ps, n, hn, hm, hr⟩
    · rw [hm, hr]
      exact .refused
    · have hbody := hparams.drop hn
      rw [List.drop_drop] at hbody
      simp only [hm, hr, of_ok_bind, ok_bind]
      exact (skipBody_skips hbody).behind h hbody ps (fun k => a + (w + n + k)) fun k => by omega
  · simp only [lift_bind, word?_head?]
    cases hname : firstWord? us with
    | some name =>
      have harrow := hat.drop (took_of_firstWord? (Option.isSome_of_eq_some hname)).1
      simp only [hat.peek, lift_bind, isMark_head?]
      split
      · exact (skipArrow_skips harrow).behind h harrow [Pattern.ident name]
          (fun k => a + (1 + k)) fun k => by omega
      · rename_i hmark
        rw [arrowTokens, if_neg hmark]
        exact .refused
    | none =>
      simp only [isMark_head?]
      split
      · rcases parameterList_reads hs hat with ⟨hm, hr⟩ | ⟨ps, n, hn, hm, hr⟩
        · rw [hm, hr]
          exact .refused
        · have harrow := hat.drop hn
          simp only [hm, hr, of_ok_bind, ok_bind]
          exact (skipArrow_skips harrow).behind h harrow ps (fun k => a + (n + k)) fun k => by omega
      · rename_i hmark
        have hrefused : readParameterList text us = .error .otherForm := by
          cases us with
          | nil => rfl
          | cons t r => exact if_neg fun hl => hmark (beq_iff_eq.mpr hl)
        rw [hrefused]
        exact .refused

theorem declared_reads (hs : Sliceable text tokens) (h : RestAt tokens pos ts) :
    Reads pos ts (declared text tokens pos) (readDeclared text ts) := by
  rw [declared, readDeclared]
  rcases parameterList_reads hs h with ⟨hm, hr⟩ | ⟨ps, n, hn, hm, hr⟩
  · rw [hm, hr]
    exact .refused
  · have hblock := h.drop hn
    simp only [hm, hr, of_ok_bind, ok_bind]
    exact (skipBlock_skips hblock).behind h hblock ps (n + ·) fun k => by omega

/-- Behind `j` tokens a function declaration is read by its name, or as the default. -/
theorem declaration_reads (hs : Sliceable text tokens) {us : List Token} {j : Nat}
    (h : RestAt tokens pos ts) (hat : RestAt tokens (pos + j) us)
    (hf : startsWithWord "function" us = true) (isDefault : Bool) :
    Reads pos ts (declaration text tokens isDefault (pos + j + 1))
      (let s := oneIf (startsWithMark .star (us.drop 1))
      match firstWord? (us.drop (1 + s)) with
      | some name => do
        let (ps, n) ← readDeclared text (us.drop (1 + s + 1))
        .ok ((name, ps), j + (1 + s + 1 + n))
      | none =>
        if isDefault then do
          let (ps, n) ← readDeclared text (us.drop (1 + s))
          .ok (("default", ps), j + (1 + s + n))
        else .error .otherForm) := by
  have hhead := took_functionHead hf
  rw [declaration, skipStar_eq hat hf, lift_bind]
  dsimp only
  generalize 1 + oneIf (startsWithMark .star (us.drop 1)) = s at hhead ⊢
  have hname := hat.drop hhead.1
  rw [hname.current, lift_bind, word?_head?]
  cases hw : firstWord? (us.drop s) with
  | some name =>
    have hparams := hname.drop (took_of_firstWord? (Option.isSome_of_eq_some hw)).1
    rw [List.drop_drop] at hparams
    exact (declared_reads hs hparams).behind h hparams (name, ·) (fun n => j + (s + 1 + n))
      fun n => by omega
  | none =>
    cases isDefault with
    | true =>
      exact (declared_reads hs hname).behind h hname ("default", ·) (fun n => j + (s + n))
        fun n => by omega
    | false => exact .refused

/-- Behind `j` tokens and the word that binds it, a name is read with its function value. -/
theorem binding_reads (hs : Sliceable text tokens) {us : List Token} {j : Nat}
    (h : RestAt tokens pos ts) (hat : RestAt tokens (pos + j) us)
    (hb : (firstWord? us).isSome = true) :
    Reads pos ts (binding text tokens (pos + j + 1))
      (match firstWord? (us.drop 1) with
      | some name =>
        if startsWithMark .assign (us.drop 2) then do
          let (ps, n) ← readFunctionValue text (width text) (us.drop 3)
          .ok ((name, ps), j + (3 + n))
        else .error .otherForm
      | none => .error .otherForm) := by
  have hname := hat.drop (took_of_firstWord? hb).1
  rw [binding, hname.current, lift_bind, word?_head?]
  cases hw : firstWord? (us.drop 1) with
  | none => exact .refused
  | some name =>
    have hassign := hname.drop (took_of_firstWord? (Option.isSome_of_eq_some hw)).1
    rw [List.drop_drop] at hassign
    simp only [hassign.current, lift_bind, isMark_head?]
    split
    · rename_i hmark
      have hvalue := hassign.drop (took_of_startsWithMark hmark ⟨rfl, rfl, by decide⟩).1
      rw [List.drop_drop] at hvalue
      exact (functionValue_reads hs hvalue).behind h hvalue (name, ·) (fun n => j + (3 + n))
        fun n => by omega
    · exact .refused

theorem function_reads (hs : Sliceable text tokens) (h : RestAt tokens pos ts) :
    Reads pos ts (function text tokens pos) (readFunction text (width text) ts) := by
  have hexport := h.drop (took_exportWords ts).1
  rw [function, exportWords_eq h, lift_bind]
  unfold readFunction
  dsimp only
  generalize (startsWithWord "export" ts && startsWithWord "default" (ts.drop 1)) = isDefault
    at hexport ⊢
  generalize oneIf (startsWithWord "export" ts) + oneIf isDefault = x at hexport ⊢
  have hat := hexport.drop (took_asyncWord (ts.drop x)).1
  rw [asyncWord_eq hexport, lift_bind]
  generalize oneIf (startsWithWord "async" (ts.drop x) && _) = a at hat ⊢
  rw [Nat.add_assoc] at hat ⊢
  rw [hat.current, lift_bind, isWord_head?]
  generalize (ts.drop x).drop a = us at hat ⊢
  split
  · rename_i hf
    exact declaration_reads hs h hat hf isDefault
  cases hb : firstWord? us with
  | none =>
    cases isDefault <;> simp only [lift_bind, word?_head?, hb] <;> exact .refused
  | some binder =>
    have hbind := binding_reads hs h hat (Option.isSome_of_eq_some hb)
    simp only [lift_bind, word?_head?, hb, Option.any_some]
    cases hn : firstWord? (us.drop 1) with
    | none =>
      rw [hn] at hbind
      split
      · exact .refused
      split
      · exact hbind
      · exact .refused
    | some name =>
      rw [hn] at hbind
      cases isDefault with
      | true => exact .refused
      | false =>
        by_cases hw : bindingWords.contains binder = true
        · simpa only [hw, Bool.false_eq_true, if_false, if_true, true_and] using hbind
        · simp only [hw, Bool.false_eq_true, if_false, false_and, and_false]
          exact .refused

end Functions

/-! ## Statements -/

theorem statements_eq (hs : Sliceable text tokens) : ∀ (ts : List Token) (previousStop : Option Nat)
    {pos : Nat}, RestAt tokens pos ts → statements text tokens previousStop pos =
      of (readStatements text (width text) previousStop ts)
  | [], previousStop, pos, h => by
    rw [statements, h.current, readStatements]
    rfl
  | t :: r, previousStop, pos, h => by
    rw [statements, h.current, readStatements]
    simp only [List.head?_cons, lift_bind, h.further (Nat.lt_succ_self pos)]
    split
    · exact statements_eq hs r previousStop h.tail
    have hgoes {k : Nat} (hk : k ≤ r.length) :=
      statements_eq hs (r.drop k) (some ((r.take k).getLast?.getD t).stop)
        (h.drop (n := k + 1) (Nat.succ_le_succ hk))
    rw [readStatement]
    rcases function_reads hs h with ⟨hm, hr⟩ | ⟨⟨name, ps⟩, n, hn, hm, hr⟩
    · simp only [hm, hr, attempt_of, of_ok_bind, statementEnd_eq h]
      cases hskip : Source.skipStatement (width text) 0 (t :: r) with
      | error e => rfl
      | ok n =>
        obtain ⟨k, rfl⟩ := Nat.exists_eq_succ_of_ne_zero (Nat.ne_of_gt (pos_of_skipStatement hskip))
        have hk : k ≤ r.length := Nat.le_of_succ_le_succ (depth_of_skipStatement hskip).1
        simp only [Except.map, of_ok_bind, h.before_cons hk, lift_bind, Nat.succ_eq_add_one,
          h.further (Nat.lt_add_of_pos_right (Nat.succ_pos k)), hgoes hk, Nat.add_sub_cancel]
        cases readStatements text (width text) (some ((r.take k).getLast?.getD t).stop)
          (r.drop k) <;> rfl
    · obtain ⟨k, rfl⟩ := Nat.exists_eq_succ_of_ne_zero (Nat.ne_of_gt (took_readFunction hr).1)
      have hk : k ≤ r.length := Nat.le_of_succ_le_succ hn
      simp only [hm, hr, attempt_of, of_ok_bind, h.before_cons hk, lift_bind, Nat.succ_eq_add_one,
        h.further (Nat.lt_add_of_pos_right (Nat.succ_pos k)), hgoes hk, Nat.add_sub_cancel]
      cases readStatements text (width text) (some ((r.take k).getLast?.getD t).stop)
        (r.drop k) <;> rfl
termination_by ts => ts.length

/-! ## Texts -/

section Texts

variable {source : List Char} {l : Lexed}

/-- Between two places of a text in order there is a stretch. -/
theorem exists_stretch? {pre pre' : List Char} (h : pre <+: source) (h' : pre' <+: source)
    (hle : width pre ≤ width pre') : ∃ u, stretch? source (width pre) (width pre') = some u := by
  obtain ⟨mid, rfl⟩ : pre <+: pre' := by
    rcases List.prefix_or_prefix_of_prefix h h' with hpre | ⟨mid, rfl⟩
    · exact hpre
    · cases mid with
      | nil => rw [List.append_nil]
      | cons c mid =>
        have hc := Char.utf8Size_pos c
        rw [width_append, width_cons] at hle
        omega
  obtain ⟨post, rfl⟩ := h'
  exact ⟨mid, by rw [List.append_assoc, width_append, stretch?_width]⟩

/-- Tokens of a text that follow each other have a text. -/
theorem sliceable_of_tokenize (h : Source.tokenize source = .ok l) : Sliceable source l.tokens := by
  intro us hus
  match us with
  | [] => exact ⟨"", rfl⟩
  | first :: rest =>
    obtain ⟨last, hlast⟩ : ∃ last, (first :: rest).getLast? = some last := ⟨_, List.getLast?_cons⟩
    have hmem : last ∈ first :: rest := List.mem_of_getLast? hlast
    have hle : first.start ≤ last.stop := by
      have hpairs := List.pairwise_cons.mp ((tokens_pairwise h).sublist hus.sublist)
      have hlt {t : Token} (ht : t ∈ first :: rest) : t.start < t.stop :=
        start_lt_stop_of_mem_tokens h (hus.subset ht)
      rcases List.mem_cons.mp hmem with rfl | hrest
      · exact Nat.le_of_lt (hlt List.mem_cons_self)
      · have hfirst := hlt List.mem_cons_self
        have hlater := hlt hmem
        have hbefore := hpairs.1 last hrest
        omega
    obtain ⟨pre, body, post, hs, hstart, -⟩ :=
      slice_of_mem_tokens h (hus.subset List.mem_cons_self)
    obtain ⟨pre', body', post', hs', -, hstop, -⟩ := slice_of_mem_tokens h (hus.subset hmem)
    rw [← width_append] at hstop
    have hpre : pre <+: source := ⟨body ++ post, hs.symm⟩
    have hpre' : pre' ++ body' <+: source := ⟨post', by rw [List.append_assoc, ← hs']⟩
    obtain ⟨u, hu⟩ := exists_stretch? hpre hpre' (by rwa [← hstart, ← hstop])
    exact ⟨String.ofList u, by rw [textOf, List.head?_cons, hlast]; simp only [hstart, hstop, hu]⟩

theorem size_of_tokenize (h : Source.tokenize source = .ok l) : l.size = width source := by
  unfold Source.tokenize at h
  split at h
  · cases h
  · cases h
    rfl

/-- Going over a text by byte offsets and token numbers gives its functions and comments. -/
theorem readModule_eq (source : List Char) : readModule source = of (Source.readModule source) := by
  rw [readModule, tokenize_eq, Source.readModule]
  cases hl : Source.tokenize source with
  | error e => rfl
  | ok l =>
    simp only [of_ok_bind, size_of_tokenize hl,
      statements_eq (sliceable_of_tokenize hl) l.tokens none (.start l.tokens)]
    cases readStatements source (width source) none l.tokens <;> rfl

/-- Every text is cut up and read, or refused, with every byte and token that is asked for in
place, every stretch cut at character boundaries in order, and every count of brackets above zero
where it goes down. -/
theorem checks_hold (source : List Char) :
    tokenize source = of (Source.tokenize source) ∧
      readModule source = of (Source.readModule source) :=
  ⟨tokenize_eq source, readModule_eq source⟩

end Texts

end CallContract.Source.Checked
