import CallContract.Proofs.Source.Brackets
import CallContract.Proofs.Source.Concatenation.Tokens

/-!
# Parameters within a longer text

A parameter list is read up to its closing parenthesis, whatever comes after it, and apart from
the offsets of its tokens. So it is read in the same way where its text stands within a longer
one (`readParameterList_link`), if the stretches between its tokens are the same there
(`Embeds`).
-/

namespace CallContract.Source

/-! ## Stretches of a longer text -/

/-- Between two places of a text there is what there is between them where the text stands in a
longer one. -/
theorem stretch?_within {p s q pre pre' : List Char} (h : pre <+: s) (h' : pre' <+: s) :
    stretch? (p ++ (s ++ q)) (width p + width pre) (width p + width pre') =
      stretch? s (width pre) (width pre') := by
  rcases List.prefix_or_prefix_of_prefix h h' with hle | hle
  · obtain ⟨mid, rfl⟩ := hle
    obtain ⟨post, rfl⟩ := h'
    have hlong := stretch?_width (p ++ pre) mid (post ++ q)
    have hshort := stretch?_width pre mid post
    simp only [width_append, List.append_assoc, Nat.add_assoc] at hlong hshort ⊢
    rw [hlong, hshort]
  · obtain ⟨mid, rfl⟩ := hle
    rcases mid with _ | ⟨c, mid⟩
    · obtain ⟨post, rfl⟩ := h
      have hlong := stretch?_width (p ++ pre') [] (post ++ q)
      have hshort := stretch?_width pre' [] post
      simp only [width_append, width_nil, List.append_assoc, List.append_nil, List.nil_append,
        Nat.add_zero] at hlong hshort ⊢
      rw [hlong, hshort]
    · have hc := Char.utf8Size_pos c
      have hlt : width pre' < width (pre' ++ c :: mid) := by
        rw [width_append, width_cons]
        omega
      rw [stretch?, stretch?, if_neg (by omega), if_neg (by omega)]

/-- The stretches between tokens of `text` are the same in `text'`, where they stand `k` bytes
further on. -/
def Embeds (text text' : List Char) (k : Nat) (ts : List Token) : Prop :=
  ∀ t ∈ ts, ∀ u ∈ ts, stretch? text' (k + t.start) (k + u.stop) = stretch? text t.start u.stop

/-- A text stands within a longer one. -/
theorem embeds_of_tokenize {s : List Char} {l : Lexed} (h : tokenize s = .ok l) (p q : List Char) :
    Embeds s (p ++ (s ++ q)) (width p) l.tokens := by
  intro t ht u hu
  obtain ⟨pre, body, post, hs, hstart, -⟩ := slice_of_mem_tokens h ht
  obtain ⟨pre', body', post', hs', -, hstop, -⟩ := slice_of_mem_tokens h hu
  have hpre : pre <+: s := ⟨body ++ post, hs.symm⟩
  have hpre' : pre' ++ body' <+: s := ⟨post', by rw [List.append_assoc, ← hs']⟩
  have hwithin := stretch?_within (p := p) (q := q) hpre hpre'
  rwa [width_append, ← hstart, ← hstop] at hwithin

/-! ## Tokens before others -/

/-- The tokens `ts`, `k` bytes further on, before the tokens `us`. -/
def link (k : Nat) (ts us : List Token) : List Token := ts.map (Token.moved k) ++ us

variable {text text' : List Char} {k : Nat} {t : Token} {ts us : List Token}

theorem link_cons : link k (t :: ts) us = t.moved k :: link k ts us := rfl

theorem link_drop {n : Nat} (h : n ≤ ts.length) :
    (link k ts us).drop n = link k (ts.drop n) us := by
  rw [link, List.drop_append_of_le_length (by simpa using h), ← List.map_drop]
  rfl

theorem link_take {n : Nat} (h : n ≤ ts.length) :
    (link k ts us).take n = (ts.take n).map (Token.moved k) := by
  rw [link, List.take_append_of_le_length (by simpa using h), List.map_take]

/-- Tokens of `text` that close a bracket which they do not open, and that stand in `text'`. -/
structure Enclosed (text text' : List Char) (k : Nat) (ts : List Token) : Prop where
  closes : depthAfterAll? 0 ts = none
  embeds : Embeds text text' k ts

theorem Embeds.of_subset (h : Embeds text text' k ts) {vs : List Token} (hs : vs ⊆ ts) :
    Embeds text text' k vs := fun t ht u hu => h t (hs ht) u (hs hu)

namespace Enclosed

theorem ne_nil (h : Enclosed text text' k ts) : ts ≠ [] := by
  rintro rfl
  exact absurd h.closes (by simp [depthAfterAll?])

/-- Behind a token that is no bracket. -/
theorem tail (h : Enclosed text text' k (t :: ts)) (ht : t.lexeme.IsPlain) :
    Enclosed text text' k ts := by
  refine ⟨?_, h.embeds.of_subset (List.subset_cons_self t ts)⟩
  have hc := h.closes
  rwa [depthAfterAll?, ht.depthAfter?] at hc

/-- Behind an opening bracket. -/
theorem opened (h : Enclosed text text' k (t :: ts)) (ht : t.lexeme.opens = true) :
    Enclosed text text' k ts := by
  refine ⟨?_, h.embeds.of_subset (List.subset_cons_self t ts)⟩
  have hc := h.closes
  rw [depthAfterAll?, depthAfter?, if_pos ht] at hc
  cases hd : depthAfterAll? 0 ts with
  | none => rfl
  | some d =>
    rw [Option.bind_some, depthAfterAll?_add hd 1] at hc
    cases hc

/-- The rest of a bracket that is closed. -/
theorem of_balanced (hb : Balanced (t :: ts)) (h : Embeds text text' k (t :: ts))
    (ht : t.lexeme.opens = true) : Enclosed text text' k ts := by
  refine ⟨?_, h.of_subset (List.subset_cons_self t ts)⟩
  rw [Balanced, depthAfterAll?, depthAfter?, if_pos ht, Option.bind_some] at hb
  cases hd : depthAfterAll? 0 ts with
  | none => rfl
  | some d =>
    rw [depthAfterAll?_add hd 1] at hb
    cases hb

/-- Behind balanced tokens. -/
theorem drop {n : Nat} (h : Enclosed text text' k ts) (hn : Took Balanced ts n) :
    Enclosed text text' k (ts.drop n) := by
  refine ⟨?_, h.embeds.of_subset (List.drop_subset n ts)⟩
  have hc := h.closes
  rwa [← List.take_append_drop n ts, hn.2.depth_append] at hc

/-- There is a token behind those that a reader takes, and the same in the longer text. -/
theorem next {n : Nat} (h : Enclosed text text' k (ts.drop n)) (hn : n ≤ ts.length)
    (us : List Token) : ∃ u s, ts.drop n = u :: s ∧
      (link k ts us).drop n = u.moved k :: link k s us ∧ s.length < ts.length ∧
      (u.lexeme = .mark .comma → Enclosed text text' k s) := by
  obtain ⟨u, s, hs⟩ := List.exists_cons_of_ne_nil h.ne_nil
  rw [hs] at h
  exact ⟨u, s, hs, by rw [link_drop hn, hs, link_cons], length_lt_of_drop_eq_cons hs,
    fun hu => h.tail (hu ▸ ⟨rfl, rfl, by decide⟩)⟩

end Enclosed

/-! ## Default values -/

theorem literal?_map : ∀ ts : List Token, literal? (ts.map (Token.moved k)) = literal? ts
  | [] => rfl
  | [_] => rfl
  | [_, _] => rfl
  | _ :: _ :: _ :: _ => rfl

theorem textOf_map (h : Embeds text text' k ts) :
    textOf text' (ts.map (Token.moved k)) = textOf text ts := by
  unfold textOf
  rw [List.head?_map, List.getLast?_map]
  cases hf : ts.head? with
  | none => rfl
  | some first =>
    cases hl : ts.getLast? with
    | none => rfl
    | some last =>
      have hstretch := h first (List.mem_of_head? hf) last (List.mem_of_getLast? hl)
      simp only [Option.map_some, Token.moved, hstretch]

theorem classifyDefault_map (h : Embeds text text' k ts) :
    classifyDefault text' (ts.map (Token.moved k)) = classifyDefault text ts := by
  unfold classifyDefault
  rw [literal?_map, textOf_map h]
  rcases ts with _ | ⟨t, _ | ⟨op, l⟩⟩
  · rfl
  · rfl
  · simp only [List.map_cons, Token.lexeme_moved, literal?_map]

theorem defaultLength?_link {d : Nat} (h : depthAfterAll? d ts = none) :
    defaultLength? d (link k ts us) = defaultLength? d ts := by
  induction ts generalizing d with
  | nil => cases h
  | cons t ts ih =>
    rw [link_cons, defaultLength?, defaultLength?, Token.lexeme_moved]
    rw [depthAfterAll?] at h
    cases hd : depthAfter? d t.lexeme with
    | none => rfl
    | some e =>
      rw [hd] at h
      simp only [ih h]

theorem readDefault_link (h : Enclosed text text' k ts) :
    readDefault text' (link k ts us) = readDefault text ts := by
  unfold readDefault
  rw [defaultLength?_link h.closes]
  split
  · rfl
  · rfl
  · rename_i n _ hn
    rw [link_take (depth_of_defaultLength? hn).1,
      classifyDefault_map (h.embeds.of_subset (List.take_subset n ts))]

theorem withDefault_link (h : Enclosed text text' k ts) (p : Pattern) (n : Nat) :
    withDefault text' p n (link k ts us) = withDefault text p n ts := by
  cases ts with
  | nil => exact absurd rfl h.ne_nil
  | cons t ts =>
    rw [link_cons, withDefault, withDefault, Token.lexeme_moved]
    split
    · rename_i ht
      rw [readDefault_link (h.tail (ht ▸ ⟨rfl, rfl, by decide⟩))]
    · rfl

/-! ## Patterns -/

theorem propertyKey_moved (h : Embeds text text' k (t :: ts)) :
    propertyKey text' (t.moved k) = propertyKey text t := by
  have hone : Embeds text text' k [t] := h.of_subset (by simp)
  have htext : textOf text' [t.moved k] = textOf text [t] := textOf_map hone
  unfold propertyKey
  rw [htext]
  rfl

mutual

theorem readTarget_link : ∀ (ts : List Token), Enclosed text text' k ts →
    readTarget text' (link k ts us) = readTarget text ts
  | [], h => absurd rfl h.ne_nil
  | t :: r, h => by
    rw [link_cons, readTarget, readTarget, Token.lexeme_moved]
    split
    · rfl
    · rename_i hl
      rw [readProperties_link r (h.opened (hl ▸ rfl))]
    · rename_i hl
      rw [readElements_link r (h.opened (hl ▸ rfl))]
    · rfl
termination_by ts => 3 * ts.length

theorem readPattern_link : ∀ (ts : List Token), Enclosed text text' k ts →
    readPattern text' (link k ts us) = readPattern text ts
  | [], h => absurd rfl h.ne_nil
  | t :: r, h => by
    rw [link_cons, readPattern, readPattern, Token.lexeme_moved]
    split
    · rename_i hl
      rw [readTarget_link r (h.tail (hl ▸ ⟨rfl, rfl, by decide⟩))]
    · rw [← link_cons, readTarget_link (t :: r) h]
      split
      · rfl
      · rename_i hq
        have htook := took_readTarget (t :: r) hq
        rw [link_drop htook.1, withDefault_link (h.drop htook)]
termination_by ts => 3 * ts.length + 1

theorem readProperties_link : ∀ (ts : List Token), Enclosed text text' k ts →
    readProperties text' (link k ts us) = readProperties text ts
  | [], h => absurd rfl h.ne_nil
  | t :: r, h => by
    rw [link_cons, readProperties, readProperties, Token.lexeme_moved]
    split
    · rfl
    · rw [readProperty_link t r h]
      split
      · rfl
      · rename_i p n hp
        have htook := took_readProperty t r hp
        have hrest : Enclosed text text' k (r.drop n) := h.drop htook
        obtain ⟨u, s, hs, hlink, hlt, hrest⟩ := hrest.next (Nat.le_of_succ_le_succ htook.1) us
        dsimp only
        rw [hlink, hs]
        dsimp only
        rw [Token.lexeme_moved]
        split
        · rename_i hu
          rw [readProperties_link s (hrest hu)]
        · rfl
termination_by ts => 3 * ts.length + 2
decreasing_by all_goals (simp only [List.length_cons]; omega)

theorem readProperty_link (t : Token) : ∀ (ts : List Token), Enclosed text text' k (t :: ts) →
    readProperty text' (t.moved k) (link k ts us) = readProperty text t ts
  | ts, h => by
    rw [readProperty.eq_def, readProperty.eq_def, Token.lexeme_moved, propertyKey_moved h.embeds]
    split
    · rename_i hl
      rw [readTarget_link ts (h.tail (hl ▸ ⟨rfl, rfl, by decide⟩))]
    split
    · rfl
    · rename_i hkey
      have hrest := h.tail (isPlain_of_propertyKey hkey)
      cases ts with
      | nil => exact absurd rfl hrest.ne_nil
      | cons u r =>
        rw [link_cons]
        dsimp only
        rw [← link_cons, Token.lexeme_moved]
        split
        · rename_i hu
          rw [readPattern_link r (hrest.tail (hu ▸ ⟨rfl, rfl, by decide⟩))]
        · split
          · rw [withDefault_link hrest]
          · rfl
termination_by ts => 3 * ts.length + 2

theorem readElements_link : ∀ (ts : List Token), Enclosed text text' k ts →
    readElements text' (link k ts us) = readElements text ts
  | [], h => absurd rfl h.ne_nil
  | t :: r, h => by
    rw [link_cons, readElements, readElements, Token.lexeme_moved]
    split
    · rfl
    split
    · rename_i hl
      rw [readElements_link r (h.tail (hl ▸ ⟨rfl, rfl, by decide⟩))]
    · have hfirst : readPattern text' (t.moved k :: link k r us) = readPattern text (t :: r) :=
        readPattern_link (t :: r) h
      rw [hfirst]
      split
      · rfl
      · rename_i p n hp
        have htook := took_readPattern (t :: r) hp
        obtain ⟨u, s, hs, hlink, hlt, hrest⟩ := (h.drop htook).next htook.1 us
        rw [link_cons] at hlink
        dsimp only
        rw [hlink, hs]
        dsimp only
        rw [Token.lexeme_moved]
        split
        · rename_i hu
          rw [readElements_link s (hrest hu)]
        · rfl
termination_by ts => 3 * ts.length + 2
decreasing_by all_goals (simp only [List.length_cons] at *; omega)

end

/-! ## Parameter lists -/

theorem parameterLength?_link {d : Nat} (h : depthAfterAll? d ts = none) :
    parameterLength? d (link k ts us) = parameterLength? d ts := by
  induction ts generalizing d with
  | nil => cases h
  | cons t ts ih =>
    rw [link_cons, parameterLength?, parameterLength?, Token.lexeme_moved]
    rw [depthAfterAll?] at h
    split
    · rfl
    · cases hd : depthAfter? d t.lexeme with
      | none => rfl
      | some e =>
        rw [hd] at h
        simp only [ih h]

theorem readParameter_link (h : Enclosed text text' k ts) :
    readParameter text' (link k ts us) = readParameter text ts := by
  unfold readParameter
  rw [readPattern_link ts h, parameterLength?_link h.closes]
  split
  · rfl
  · rfl
  · split
    · rfl
    · rename_i n hn
      rw [link_take (depth_of_parameterLength? hn).1,
        textOf_map (h.embeds.of_subset (List.take_subset n ts))]

theorem readParameters_link : ∀ (ts : List Token), Enclosed text text' k ts →
    readParameters text' (link k ts us) = readParameters text ts
  | [], h => absurd rfl h.ne_nil
  | t :: r, h => by
    rw [link_cons, readParameters, readParameters, Token.lexeme_moved]
    split
    · rfl
    · have hfirst : readParameter text' (t.moved k :: link k r us) = readParameter text (t :: r) :=
        readParameter_link h
      rw [hfirst]
      split
      · rfl
      · rename_i p n hp
        have htook := took_readParameter hp
        obtain ⟨u, s, hs, hlink, hlt, hrest⟩ := (h.drop htook).next htook.1 us
        rw [link_cons] at hlink
        dsimp only
        rw [hlink, hs]
        dsimp only
        rw [Token.lexeme_moved]
        split
        · rename_i hu
          rw [readParameters_link s (hrest hu)]
        · rfl
termination_by ts => ts.length
decreasing_by all_goals (simp only [List.length_cons]; omega)

/-- A parameter list is read the same way in a longer text if its brackets close there. -/
theorem readParameterList_link (h : Embeds text text' k ts) (hb : Balanced ts) (hne : ts ≠ []) :
    readParameterList text' (link k ts us) = readParameterList text ts := by
  cases ts with
  | nil => exact absurd rfl hne
  | cons t ts =>
    rw [link_cons, readParameterList, readParameterList, Token.lexeme_moved]
    split
    · rename_i hl
      rw [readParameters_link ts (.of_balanced hb h (hl ▸ rfl))]
    · rfl

end CallContract.Source
