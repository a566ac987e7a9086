import CallContract.Proofs.Source.Concatenation.Parameters
import Mathlib.Data.List.Forall2

/-!
# Statements within a longer text

Where a statement ends depends on the token behind it, and whether it is read as a function on
tokens further on. Behind a text that ends with a semicolon none of this reaches what follows
(`Complete`): the statements of the text are read as they are by themselves
(`exists_statements_append`).
-/

namespace CallContract.Source

variable {text text' : List Char} {size size' k : Nat} {b : Bool} {t : Token} {ts us : List Token}

/-- Tokens of statements of `text` that stand in `text'` before the tokens `us`, if any, and end
with a semicolon then. -/
structure Complete (text text' : List Char) (k : Nat) (ts us : List Token) : Prop where
  balanced : Balanced ts
  embeds : Embeds text text' k ts
  sealed : us = [] ∨ ts.getLast?.map Token.lexeme = some (.mark .semicolon)

namespace Complete

/-- There is a first token, or there are none at all. -/
theorem nil_or_cons (h : Complete text text' k ts us) :
    (ts = [] ∧ us = []) ∨ ∃ t r, ts = t :: r := by
  cases ts with
  | nil =>
    rcases h.sealed with hus | hlast
    · exact .inl ⟨rfl, hus⟩
    · cases hlast
  | cons t r => exact .inr ⟨t, r, rfl⟩

/-- Behind statements. -/
theorem rest {n : Nat} (h : Complete text text' k ts us) (hn : Took Balanced ts n)
    (hne : us = [] ∨ ts.drop n ≠ []) : Complete text text' k (ts.drop n) us := by
  have hb := h.balanced
  rw [← List.take_append_drop n ts, Balanced, hn.2.depth_append] at hb
  refine ⟨hb, h.embeds.of_subset (List.drop_subset n ts), ?_⟩
  rcases h.sealed with hus | hlast
  · exact .inl hus
  rcases hne with hus | hne
  · exact .inl hus
  refine .inr ?_
  rwa [← List.take_append_drop n ts, List.getLast?_append, List.getLast?_eq_some_getLast hne,
    Option.some_or, ← List.getLast?_eq_some_getLast hne] at hlast

/-- Behind a part of a statement. -/
theorem drop {n : Nat} (h : Complete text text' k ts us) (hn : Took Part ts n) :
    Complete text text' k (ts.drop n) us := by
  refine h.rest hn.balanced ?_
  rcases h.sealed with hus | hlast
  · exact .inl hus
  -- were there nothing left, the part would end with the semicolon
  refine .inr fun hnil => ?_
  obtain ⟨u, hu, hl⟩ := Option.map_eq_some_iff.mp hlast
  refine hn.2.endsOpen u ?_ hl
  rwa [← List.take_append_drop n ts, hnil, List.append_nil] at hu

end Complete

/-! ## The first token -/

theorem moveAll_cons_append :
    moveAll k b (t :: ts) ++ us = (t.moved k).behind b :: link k ts us := rfl

theorem link_eq (k : Nat) (ts us : List Token) : link k ts us = moveAll k false ts ++ us := by
  rw [moveAll_false]
  rfl

theorem moveAll_drop_pos {n : Nat} (hpos : 0 < n) (hn : n ≤ ts.length) :
    (moveAll k b ts ++ us).drop n = link k (ts.drop n) us := by
  obtain ⟨n, rfl⟩ := Nat.exists_eq_succ_of_ne_zero (Nat.ne_of_gt hpos)
  cases ts with
  | nil => exact absurd hn (Nat.not_succ_le_zero n)
  | cons t ts =>
    rw [moveAll_cons_append, List.drop_succ_cons, link_drop (Nat.le_of_succ_le_succ hn)]
    rfl

theorem moveAll_drop (k : Nat) (b : Bool) (us : List Token) {n : Nat} (hn : n ≤ ts.length) :
    ∃ c, (moveAll k b ts ++ us).drop n = moveAll k c (ts.drop n) ++ us := by
  cases n with
  | zero => exact ⟨b, rfl⟩
  | succ n => exact ⟨false, by rw [moveAll_drop_pos (Nat.succ_pos n) hn, link_eq]⟩

section First

variable (h : Complete text text' k ts us)
include h

theorem startsWithWord_moveAll (w : String) :
    startsWithWord w (moveAll k b ts ++ us) = startsWithWord w ts := by
  rcases h.nil_or_cons with ⟨rfl, rfl⟩ | ⟨t, r, rfl⟩ <;> rfl

theorem firstWord?_moveAll : firstWord? (moveAll k b ts ++ us) = firstWord? ts := by
  rcases h.nil_or_cons with ⟨rfl, rfl⟩ | ⟨t, r, rfl⟩ <;> rfl

theorem startsWithWord_link (w : String) :
    startsWithWord w (link k ts us) = startsWithWord w ts := by
  rw [link_eq, startsWithWord_moveAll h]

theorem startsWithMark_link (m : Mark) :
    startsWithMark m (link k ts us) = startsWithMark m ts := by
  rcases h.nil_or_cons with ⟨rfl, rfl⟩ | ⟨t, r, rfl⟩ <;> rfl

theorem firstWord?_link : firstWord? (link k ts us) = firstWord? ts := by
  rw [link_eq, firstWord?_moveAll h]

theorem endsHere_link (last : Token) :
    endsHere (last.moved k) (link k ts us) = endsHere last ts := by
  rcases h.nil_or_cons with ⟨rfl, rfl⟩ | ⟨t, r, rfl⟩ <;> rfl

end First

/-! ## Skipped statements -/

/-- Skipping a token that is no semicolon outside brackets. -/
theorem skipStatement_cons {d e : Nat} (ht : ¬(t.lexeme = .mark .semicolon ∧ d = 0))
    (he : depthAfter? d t.lexeme = some e) : skipStatement size d (t :: ts) =
      if e = 0 ∧ endsHere t ts = true then .ok 1 else (skipStatement size e ts).map (· + 1) := by
  rw [skipStatement, if_neg ht, he]
  dsimp only
  split
  · rfl
  · cases skipStatement size e ts <;> rfl

/-- A statement that is skipped ends where it does by itself. -/
theorem exists_skipStatement (size size' k : Nat) : ∀ {ts : List Token} {d : Nat} (b : Bool),
    depthAfterAll? d ts = some 0 →
    (us = [] ∨ ts.getLast?.map Token.lexeme = some (.mark .semicolon)) →
    ∃ n, skipStatement size d ts = .ok n ∧
      skipStatement size' d (moveAll k b ts ++ us) = .ok n
  | [], d, b, hd, hs => by
    obtain rfl : d = 0 := Option.some.inj hd
    rcases hs with rfl | hs
    · exact ⟨0, rfl, rfl⟩
    · cases hs
  | t :: ts, d, b, hd, hs => by
    obtain ⟨e, he, hd⟩ := Option.bind_eq_some_iff.mp hd
    rw [moveAll_cons_append]
    by_cases hsemi : t.lexeme = .mark .semicolon ∧ d = 0
    · rw [skipStatement, skipStatement, Token.lexeme_behind, Token.lexeme_moved, if_pos hsemi,
        if_pos hsemi]
      exact ⟨1, rfl, rfl⟩
    -- behind the last token the depth is zero, so a semicolon there would have ended the statement
    have htail : us = [] ∨ ∃ u r, ts = u :: r := by
      rcases hs with hus | hs
      · exact .inl hus
      cases ts with
      | cons u r => exact .inr ⟨u, r, rfl⟩
      | nil =>
        have ht : t.lexeme = .mark .semicolon := Option.some.inj hs
        have he : some d = some e := by rwa [ht] at he
        exact absurd ⟨ht, (Option.some.inj he).trans (Option.some.inj hd)⟩ hsemi
    have hs : us = [] ∨ ts.getLast?.map Token.lexeme = some (.mark .semicolon) := by
      rcases htail with hus | ⟨u, r, rfl⟩
      · exact .inl hus
      · exact hs.imp id fun hlast => by rwa [List.getLast?_cons_cons] at hlast
    have hend : endsHere ((t.moved k).behind b) (link k ts us) = endsHere t ts := by
      rcases htail with rfl | ⟨u, r, rfl⟩
      · cases ts <;> rfl
      · rfl
    obtain ⟨n, hn, hn'⟩ := exists_skipStatement size size' k false hd hs
    rw [← link_eq] at hn'
    rw [skipStatement_cons hsemi he,
      skipStatement_cons (t := (t.moved k).behind b) hsemi he, hend, hn, hn']
    split
    · exact ⟨1, rfl, rfl⟩
    · exact ⟨n + 1, rfl, rfl⟩

/-- A step of reading a function skips the same tokens. -/
theorem statementTokens_link (h : Complete text text' k ts us) :
    statementTokens size' (link k ts us) = statementTokens size ts := by
  obtain ⟨n, hn, hn'⟩ := exists_skipStatement size size' k false h.balanced h.sealed
  rw [statementTokens, statementTokens, link_eq, hn, hn']

theorem blockRest?_link {d : Nat} (h : depthAfterAll? d ts = none) :
    blockRest? d (link k ts us) = blockRest? d ts := by
  induction ts generalizing d with
  | nil => cases h
  | cons t ts ih =>
    rw [link_cons, blockRest?, blockRest?, Token.lexeme_moved]
    rw [depthAfterAll?] at h
    cases hd : depthAfter? d t.lexeme with
    | none => rfl
    | some e =>
      rw [hd] at h
      simp only [ih h]

theorem bind_congr_ok {ε α β : Type} {x : Except ε α} {f g : α → Except ε β}
    (h : ∀ a, x = .ok a → f a = g a) : x >>= f = x >>= g := by
  cases x with
  | error e => rfl
  | ok a => exact h a rfl

section Functions

variable (h : Complete text text' k ts us)
include h

theorem blockTokens_link : blockTokens (link k ts us) = blockTokens ts := by
  rcases h.nil_or_cons with ⟨rfl, rfl⟩ | ⟨t, r, rfl⟩
  · rfl
  · rw [link_cons, blockTokens, blockTokens, Token.lexeme_moved]
    split
    · rename_i hl
      have hr : Enclosed text text' k r := .of_balanced h.balanced h.embeds (hl ▸ rfl)
      rw [blockRest?_link hr.closes]
    · rfl

theorem finishTokens_link (last : Option Token) :
    finishTokens size' (last.map (Token.moved k)) (link k ts us) = finishTokens size last ts := by
  have hlast : (last.map (Token.moved k)).any (endsHere · (link k ts us)) =
      last.any (endsHere · ts) := by
    cases last with
    | none => rfl
    | some t => exact endsHere_link h t
  rw [finishTokens, finishTokens, hlast, startsWithMark_link h, statementTokens_link h]

theorem bodyTokens_link : bodyTokens size' (link k ts us) = bodyTokens size ts := by
  unfold bodyTokens
  rw [blockTokens_link h]
  refine bind_congr_ok fun n hn => ?_
  have htook := took_blockTokens hn
  rw [link_take htook.1, link_drop htook.1, List.getLast?_map, finishTokens_link (h.drop htook)]

theorem arrowTokens_link : arrowTokens size' (link k ts us) = arrowTokens size ts := by
  unfold arrowTokens
  rw [startsWithMark_link h]
  split
  · rename_i harrow
    have htook := took_of_startsWithMark harrow ⟨rfl, rfl, by decide⟩
    have hrest := h.drop htook
    rw [link_drop htook.1, arrowBodyTokens, arrowBodyTokens, startsWithMark_link hrest,
      bodyTokens_link hrest, statementTokens_link hrest]
  · rfl

theorem asyncTokens_link : asyncTokens (link k ts us) = asyncTokens ts := by
  unfold asyncTokens
  dsimp only
  rw [startsWithWord_link h]
  cases hasync : startsWithWord "async" ts with
  | false => simp
  | true =>
    have htook := took_of_startsWithWord hasync
    have hrest := h.drop htook
    rw [link_drop htook.1, startsWithWord_link hrest, startsWithMark_link hrest,
      firstWord?_link hrest]
    cases hname : (firstWord? (ts.drop 1)).isSome with
    | false => simp
    | true =>
      have hname := took_of_firstWord? hname
      rw [link_drop hname.1, startsWithMark_link (hrest.drop hname)]

theorem readParameterList_complete :
    readParameterList text' (link k ts us) = readParameterList text ts := by
  rcases h.nil_or_cons with ⟨rfl, rfl⟩ | ⟨t, r, rfl⟩
  · rfl
  · exact readParameterList_link h.embeds h.balanced (List.cons_ne_nil t r)

theorem readDeclared_link : readDeclared text' (link k ts us) = readDeclared text ts := by
  unfold readDeclared
  rw [readParameterList_complete h]
  refine bind_congr_ok fun (ps, n) hp => ?_
  have htook := took_readParameterList hp
  dsimp only
  rw [link_drop htook.1, blockTokens_link (h.drop htook)]

theorem readFunctionValue_link :
    readFunctionValue text' size' (link k ts us) = readFunctionValue text size ts := by
  unfold readFunctionValue
  dsimp only
  have hasync := took_asyncTokens ts
  rw [asyncTokens_link h, link_drop hasync.1]
  have h := h.drop hasync
  generalize ts.drop (asyncTokens ts) = vs at h
  rw [startsWithWord_link h, firstWord?_link h]
  split
  · rename_i hf
    have hword := took_of_startsWithWord hf
    have hhead := took_functionHead hf
    rw [link_drop hword.1, startsWithMark_link (h.drop hword), link_drop hhead.1,
      firstWord?_link (h.drop hhead)]
    have hname := hhead.part_add (took_oneIf took_of_firstWord?)
    rw [link_drop hname.1, readParameterList_complete (h.drop hname)]
    refine bind_congr_ok fun r hr => ?_
    have htook := hname.part_add (took_readParameterList hr)
    rw [link_drop htook.1, bodyTokens_link (h.drop htook)]
  split
  · rename_i hname
    have htook := took_of_firstWord? (Option.isSome_of_eq_some hname)
    rw [link_drop htook.1, arrowTokens_link (h.drop htook)]
  · rw [readParameterList_complete h]
    refine bind_congr_ok fun r hr => ?_
    have htook := took_readParameterList hr
    rw [link_drop htook.1, arrowTokens_link (h.drop htook)]

theorem secondWord_moveAll (w v : String) :
    (startsWithWord w ts && startsWithWord v ((moveAll k b ts ++ us).drop 1)) =
      (startsWithWord w ts && startsWithWord v (ts.drop 1)) := by
  cases hw : startsWithWord w ts with
  | false => rfl
  | true =>
    have htook := took_of_startsWithWord hw
    rw [moveAll_drop_pos Nat.one_pos htook.1, startsWithWord_link (h.drop htook)]

/-- A function is read as it is by itself, and what is none is refused as it is. -/
theorem readFunction_moveAll (size size' : Nat) :
    readFunction text' size' (moveAll k b ts ++ us) = readFunction text size ts := by
  unfold readFunction
  dsimp only
  -- the words in front may be none, so the first token is still the one behind the line break
  have hexport := took_exportWords ts
  obtain ⟨c, hdrop⟩ := moveAll_drop k b us hexport.1
  rw [startsWithWord_moveAll h, secondWord_moveAll h, hdrop]
  have h := h.drop hexport
  generalize ts.drop (_ + _) = vs at h
  have hasync := took_asyncWord vs
  obtain ⟨d, hdrop⟩ := moveAll_drop k c us hasync.1
  rw [startsWithWord_moveAll h, secondWord_moveAll h, hdrop]
  have h := h.drop hasync
  generalize vs.drop (oneIf _) = ws at h
  rw [startsWithWord_moveAll h, firstWord?_moveAll h]
  split
  · rename_i hf
    have hword := took_of_startsWithWord hf
    have hhead := took_functionHead hf
    rw [moveAll_drop_pos (by omega) hword.1, startsWithMark_link (h.drop hword),
      moveAll_drop_pos (by omega) hhead.1, firstWord?_link (h.drop hhead)]
    split
    · rename_i hname
      have htook := hhead.part_add (took_of_firstWord? (Option.isSome_of_eq_some hname))
      rw [moveAll_drop_pos (by omega) htook.1, readDeclared_link (h.drop htook)]
    · rw [readDeclared_link (h.drop hhead)]
  · cases hb : firstWord? ws with
    | none => rfl
    | some binder =>
      have hbinder := took_of_firstWord? (Option.isSome_of_eq_some hb)
      rw [moveAll_drop_pos Nat.one_pos hbinder.1, firstWord?_link (h.drop hbinder)]
      cases hn : firstWord? (ws.drop 1) with
      | none => rfl
      | some name =>
        have hname := took_of_firstWord? (Option.isSome_of_eq_some hn)
        have hwords : Took Part ws 2 := hbinder.part_add hname
        rw [moveAll_drop_pos Nat.two_pos hwords.1, startsWithMark_link (h.drop hwords)]
        dsimp only
        split
        · rename_i hbind
          have htook := took_binding (Option.isSome_of_eq_some hb) (Option.isSome_of_eq_some hn)
            hbind.2.2
          rw [moveAll_drop_pos (Nat.succ_pos 2) htook.1, readFunctionValue_link (h.drop htook)]
        · rfl

theorem readStatement_moveAll {r : Option (String × List Pattern) × Nat}
    (hr : readStatement text size ts = .ok r) (size' : Nat) (b : Bool) :
    readStatement text' size' (moveAll k b ts ++ us) = .ok r := by
  unfold readStatement at hr ⊢
  rw [readFunction_moveAll h size size']
  split
  · rename_i hf
    rwa [hf] at hr
  · rename_i hf
    rw [hf] at hr
    cases hr
  · rename_i hf
    obtain ⟨n, hn, hn'⟩ := exists_skipStatement size size' k b h.balanced h.sealed
    rw [hf, hn] at hr
    rwa [hn']

end Functions

/-! ## Top-level statements -/

/-- The same statement `k` bytes further on. -/
structure Statement.Moved (k : Nat) (s s' : Statement) : Prop where
  start : s'.start = k + s.start
  stop : s'.stop = k + s.stop
  function : s'.function = s.function

theorem Statement.Moved.of_tokens (k : Nat) (b : Bool) (t : Token) (us : List Token)
    (f : Option (String × List Pattern)) :
    Statement.Moved k ⟨t, us, f⟩ ⟨(t.moved k).behind b, us.map (Token.moved k), f⟩ := by
  refine ⟨rfl, ?_, rfl⟩
  rw [Statement.stop, Statement.stop, Statement.last, Statement.last, List.getLast?_map]
  cases us.getLast? <;> rfl

/-- The statements of a text are those it has by itself, before the statements of what follows. -/
theorem exists_statements_append {ss : List Statement} (h : ts ≠ [] → Complete text text' k ts us)
    (hs : statements text size ts = .ok ss) (size' : Nat) (b : Bool) :
    ∃ ss', List.Forall₂ (Statement.Moved k) ss ss' ∧
      statements text' size' (moveAll k b ts ++ us) =
        (statements text' size' us).map (ss' ++ ·) := by
  fun_induction statements text size ts generalizing ss b with
  | case1 =>
    cases hs
    refine ⟨[], .nil, ?_⟩
    change statements text' size' us = (statements text' size' us).map id
    rw [Except.map_id]
    rfl
  | case2 t r ht ih =>
    have htook : Took Balanced (t :: r) 1 := by
      refine ⟨by simp, ?_⟩
      rw [List.take_succ_cons, Balanced, depthAfterAll?, ht]
      rfl
    obtain ⟨ss', hmoved, heq⟩ := ih
      (fun hne => (h (List.cons_ne_nil t r)).rest htook (.inr hne)) hs false
    refine ⟨ss', hmoved, ?_⟩
    rw [moveAll_cons_append, statements, if_pos (by exact ht), link_eq, heq]
  | case3 => cases hs
  | case4 => cases hs
  | case5 t r ht f n hf ss' hss ih =>
    cases hs
    have hall := h (List.cons_ne_nil t r)
    have htook := took_readStatement hf
    obtain ⟨ss'', hmoved, heq⟩ := ih (fun hne => hall.rest htook (.inr hne)) hss false
    refine ⟨_, .cons (.of_tokens k b t (r.take n) f) hmoved, ?_⟩
    have hf' := readStatement_moveAll hall hf size' b
    have hlen := Nat.le_of_succ_le_succ htook.1
    rw [moveAll_cons_append] at hf' ⊢
    rw [statements_cons (by exact ht) hf', link_take hlen, link_drop hlen, link_eq, heq, map_map_eq]
    rfl

end CallContract.Source
