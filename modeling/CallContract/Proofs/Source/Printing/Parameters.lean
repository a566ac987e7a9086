import CallContract.Proofs.Source.Brackets
import CallContract.Proofs.Source.Printing.Pattern

/-!
# Written parameters are read back

Tokens that stand for the lexemes of a pattern are read as the pattern, and reading takes exactly
these tokens, if a comma or a closing bracket follows them (`Stops`, `readPattern_lexemes`). This
is shown for all patterns at once, along the grammar: an item of a list is followed by a comma
and what is left of the list, or by the bracket that closes it (`exists_tail`). A list of
parameters is read back by the same step (`readParameters_lexemes`).
-/

namespace CallContract.Source

variable {y : Style} {source : List Char} {ts : List Token} {ls : List Lexeme}

/-- Lexemes that start with a comma or a closing bracket: what may follow an item of a list. -/
def Stops (ls : List Lexeme) : Prop :=
  ∃ m ms, ls = .mark m :: ms ∧ (m = .comma ∨ m.closes = true)

/-! ## Default values -/

theorem literal?_literalLexeme {t : Token} {v : Json.Value} (hv : v.IsLiteral)
    (ht : t.lexeme = literalLexeme v) : literal? [t] = some v := by
  cases hv with
  | null => rw [literal?, ht]; rfl
  | bool b => cases b <;> (rw [literal?, ht]; rfl)
  | string s => rw [literal?, ht]; rfl

theorem literal?_word {t : Token} {name : String} (h : name ∉ ["true", "false", "null"])
    (ht : t.lexeme = .word name) : literal? [t] = none := by
  simp only [List.mem_cons, List.not_mem_nil, or_false, not_or] at h
  rw [literal?, ht]
  split <;> simp_all

/-- A lexeme that goes on with a default value: neither a bracket nor a comma. -/
structure Inner (l : Lexeme) : Prop where
  plain : l.IsPlain
  comma : l ≠ .mark .comma

theorem inner_word (name : String) : Inner (.word name) := ⟨Lexeme.isPlain_word name, by simp⟩

theorem inner_literalLexeme (v : Json.Value) : Inner (literalLexeme v) := by
  cases v with
  | string s => exact ⟨⟨rfl, rfl, by simp [literalLexeme]⟩, by simp [literalLexeme]⟩
  | _ => exact inner_word _

theorem inner_defaultLexemes (d : DefaultExpr) : ∀ l ∈ defaultLexemes d, Inner l := by
  cases d with
  | literal v => simpa [defaultLexemes] using inner_literalLexeme v
  | name n => simpa [defaultLexemes] using inner_word n
  | coalesce n v =>
    have hnullish : Inner (.mark .nullish) := ⟨⟨rfl, rfl, by decide⟩, by decide⟩
    simpa [defaultLexemes] using ⟨inner_word n, hnullish, inner_literalLexeme v⟩
  | other s => simp [defaultLexemes]

theorem map_lexeme_of_stands (hts : List.Forall₂ (Stands source) ts ls) :
    ts.map Token.lexeme = ls := by
  induction hts with
  | nil => rfl
  | cons ht _ ih => rw [List.map_cons, ih, ht.lexeme]

/-- A default value goes on up to the comma or the bracket behind it. -/
theorem defaultLength?_of_inner : ∀ {ms : List Lexeme} {ts : List Token}, (∀ l ∈ ms, Inner l) →
    ts.map Token.lexeme = ms ++ ls → Stops ls → defaultLength? 0 ts = some ms.length
  | [], ts, _, hts, hls => by
    obtain ⟨m, _, rfl, hm⟩ := hls
    obtain ⟨t, r, rfl, ht, -⟩ := List.map_eq_cons_iff.mp hts
    rw [defaultLength?, ht]
    cases m <;> first | rfl | simp [Mark.closes] at hm
  | l :: ms, ts, h, hts, hls => by
    obtain ⟨t, r, rfl, ht, hr⟩ := List.map_eq_cons_iff.mp hts
    obtain ⟨hl, hms⟩ := List.forall_mem_cons.mp h
    rw [defaultLength?, ht, hl.plain.depthAfter?]
    simp [hl.comma, defaultLength?_of_inner hms hr hls]

/-- A default value is classified as what it was. -/
theorem classifyDefault_lexemes {d : DefaultExpr} (hd : d.Supported)
    (hts : List.Forall₂ (Stands source) ts (defaultLexemes d)) :
    classifyDefault source ts = .ok d := by
  cases hd with
  | literal hv =>
    obtain ⟨t, _, ht, hnil, rfl⟩ := List.forall₂_cons_right_iff.mp hts
    cases hnil
    rw [classifyDefault, literal?_literalLexeme hv ht.lexeme]
  | name hname hne =>
    obtain ⟨t, _, ht, hnil, rfl⟩ := List.forall₂_cons_right_iff.mp hts
    cases hnil
    rw [classifyDefault, literal?_word hne ht.lexeme]
    simp only [ht.lexeme]
  | coalesce hname hv =>
    obtain ⟨t, _, ht, hrest, rfl⟩ := List.forall₂_cons_right_iff.mp hts
    obtain ⟨op, _, hop, hlast, rfl⟩ := List.forall₂_cons_right_iff.mp hrest
    obtain ⟨u, _, hu, hnil, rfl⟩ := List.forall₂_cons_right_iff.mp hlast
    cases hnil
    have hnone : literal? [t, op, u] = none := rfl
    rw [classifyDefault, hnone]
    simp only [ht.lexeme, hop.lexeme, literal?_literalLexeme hv hu.lexeme]

theorem length_defaultLexemes_pos {d : DefaultExpr} (hd : d.Supported) :
    0 < (defaultLexemes d).length := by
  cases hd <;> simp [defaultLexemes]

/-- A default value is read back in front of a comma or a closing bracket. -/
theorem readDefault_lexemes {d : DefaultExpr} (hd : d.Supported)
    (hts : List.Forall₂ (Stands source) ts (defaultLexemes d ++ ls)) (hls : Stops ls) :
    readDefault source ts = .ok (d, (defaultLexemes d).length) := by
  have htake := List.forall₂_take_append ts _ _ hts
  obtain ⟨n, hn⟩ := Nat.exists_eq_add_one.mpr (length_defaultLexemes_pos hd)
  have hlength := defaultLength?_of_inner (inner_defaultLexemes d) (map_lexeme_of_stands hts) hls
  rw [readDefault, hlength, hn]
  simp only
  rw [← hn, classifyDefault_lexemes hd htake]
  rfl

/-- A pattern without a default value stays as it is. -/
theorem withDefault_of_stops (hts : List.Forall₂ (Stands source) ts ls) (hls : Stops ls)
    (p : Pattern) (n : Nat) : withDefault source p n ts = .ok (p, n) := by
  obtain ⟨m, ms, rfl, hm⟩ := hls
  obtain ⟨t, r, ht, -, rfl⟩ := List.forall₂_cons_right_iff.mp hts
  have hne : ¬t.lexeme = .mark .assign := by
    rw [ht.lexeme]
    rintro ⟨⟩
    simp [Mark.closes] at hm
  rw [withDefault, if_neg hne]

/-- A default value is put on the pattern in front of it. -/
theorem withDefault_lexemes {d : DefaultExpr} (hd : d.Supported)
    (hts : List.Forall₂ (Stands source) ts (.mark .assign :: defaultLexemes d ++ ls))
    (hls : Stops ls) (p : Pattern) (n : Nat) : withDefault source p n ts =
      .ok (.withDefault p d, n + (Lexeme.mark .assign :: defaultLexemes d).length) := by
  obtain ⟨t, r, ht, hr, rfl⟩ := List.forall₂_cons_right_iff.mp hts
  rw [withDefault, if_pos ht.lexeme, readDefault_lexemes hd hr hls, List.length_cons]
  simp [Except.map, Nat.add_assoc, Nat.add_comm 1]

/-! ## One item of a list -/

section Items

variable {t u : Token} {r s : List Token} {n m : Nat}

theorem readProperties_comma {p : PropertyPattern} {ps : List PropertyPattern}
    (ht : t.lexeme ≠ .mark .braceClose) (hp : readProperty source t r = .ok (p, n))
    (hs : r.drop n = u :: s) (hu : u.lexeme = .mark .comma)
    (hps : readProperties source s = .ok (ps, m)) :
    readProperties source (t :: r) = .ok (p :: ps, 1 + n + 1 + m) := by
  rw [readProperties, if_neg ht, hp]
  dsimp only
  rw [hs]
  dsimp only
  rw [if_pos hu, hps]

theorem readProperties_last {p : PropertyPattern} (ht : t.lexeme ≠ .mark .braceClose)
    (hp : readProperty source t r = .ok (p, n)) (hs : r.drop n = u :: s)
    (hu : u.lexeme = .mark .braceClose) :
    readProperties source (t :: r) = .ok ([p], 1 + n + 1) := by
  rw [readProperties, if_neg ht, hp]
  dsimp only
  rw [hs]
  dsimp only
  rw [if_neg (by rw [hu]; decide), if_pos hu]

theorem readElements_comma {p : Pattern} {es : List (Option Pattern)}
    (ht : t.lexeme ≠ .mark .bracketClose ∧ t.lexeme ≠ .mark .comma)
    (hp : readPattern source (t :: r) = .ok (p, n)) (hs : (t :: r).drop n = u :: s)
    (hu : u.lexeme = .mark .comma) (hes : readElements source s = .ok (es, m)) :
    readElements source (t :: r) = .ok (some p :: es, n + 1 + m) := by
  rw [readElements, if_neg ht.1, if_neg ht.2, hp]
  dsimp only
  rw [hs]
  dsimp only
  rw [if_pos hu, hes]

theorem readElements_last {p : Pattern}
    (ht : t.lexeme ≠ .mark .bracketClose ∧ t.lexeme ≠ .mark .comma)
    (hp : readPattern source (t :: r) = .ok (p, n)) (hs : (t :: r).drop n = u :: s)
    (hu : u.lexeme = .mark .bracketClose) :
    readElements source (t :: r) = .ok ([some p], n + 1) := by
  rw [readElements, if_neg ht.1, if_neg ht.2, hp]
  dsimp only
  rw [hs]
  dsimp only
  rw [if_neg (by rw [hu]; decide), if_pos hu]

theorem readParameter_of_readPattern {p : Pattern} (h : readPattern source ts = .ok (p, n)) :
    readParameter source ts = .ok (p, n) := by
  rw [readParameter, h]

theorem readParameters_comma {p : Pattern} {ps : List Pattern} (ht : t.lexeme ≠ .mark .parenClose)
    (hp : readParameter source (t :: r) = .ok (p, n)) (hs : (t :: r).drop n = u :: s)
    (hu : u.lexeme = .mark .comma) (hps : readParameters source s = .ok (ps, m)) :
    readParameters source (t :: r) = .ok (p :: ps, n + 1 + m) := by
  rw [readParameters, if_neg ht, hp]
  dsimp only
  rw [hs]
  dsimp only
  rw [if_pos hu, hps]

theorem readParameters_last {p : Pattern} (ht : t.lexeme ≠ .mark .parenClose)
    (hp : readParameter source (t :: r) = .ok (p, n)) (hs : (t :: r).drop n = u :: s)
    (hu : u.lexeme = .mark .parenClose) :
    readParameters source (t :: r) = .ok ([p], n + 1) := by
  rw [readParameters, if_neg ht, hp]
  dsimp only
  rw [hs]
  dsimp only
  rw [if_neg (by rw [hu]; decide), if_pos hu]

end Items

/-! ## Properties -/

/-- Whether an item of a list may start with a lexeme. -/
def startsItem : Lexeme → Bool
  | .mark m => !m.closes && m != .comma
  | _ => true

theorem startsItem_keyLexeme (k : PropertyKey) :
    startsItem (keyLexeme k) = true ∧ keyLexeme k ≠ .mark .ellipsis := by
  cases k <;> exact ⟨rfl, by simp [keyLexeme]⟩

theorem propertyKey_keyLexeme {k : PropertyKey} {t : Token} (hk : k.Supported)
    (ht : Stands source t (keyLexeme k)) : propertyKey source t = .ok k := by
  cases hk with
  | ident hname => rw [propertyKey, ht.lexeme]; rfl
  | number hspelling => rw [propertyKey, ht.lexeme]; rfl
  | quoted value =>
    rw [propertyKey, ht.lexeme]
    simp only [keyLexeme, ht.text, Lexeme.written, String.ofList_toList]
    rfl

/-- A pattern is read back in front of a comma or a closing bracket. -/
def ReadBack (y : Style) (source : List Char) (p : Pattern) : Prop :=
  ∀ {ts : List Token} {ls : List Lexeme}, List.Forall₂ (Stands source) ts (y.lexemes p ++ ls) →
    Stops ls → readPattern source ts = .ok (p, (y.lexemes p).length)

/-- How the tokens of a property are read as the property. -/
structure PropertyRead (source : List Char) (p : PropertyPattern) (ts : List Token) (n : Nat)
    (t : Token) (r : List Token) : Prop where
  tokens : ts = t :: r
  starts : startsItem t.lexeme = true
  read : readProperty source t r = .ok (p, n)

theorem readProperty_short {t u : Token} {s : List Token} {name : String} {v : Pattern} {n : Nat}
    (ht : t.lexeme = .word name) (hu : u.lexeme ≠ .mark .colon)
    (hv : withDefault source (.ident name) 0 (u :: s) = .ok (v, n)) :
    readProperty source t (u :: s) = .ok (.property (.ident name) v, n) := by
  have hkey : propertyKey source t = .ok (.ident name) := by rw [propertyKey, ht]
  rw [readProperty.eq_def, if_neg (by rw [ht]; simp), hkey]
  simp only [if_neg hu, hv]

/-- A short property is read back. -/
theorem exists_readProperty_short {name : String} {v : Pattern} (hv : v.Supported)
    (hname : v.bareName? = some name)
    (hts : List.Forall₂ (Stands source) ts (y.lexemes v ++ ls)) (hls : Stops ls) :
    ∃ t r n, PropertyRead source (.property (.ident name) v) ts n t r ∧
      n + 1 = (y.lexemes v).length := by
  unfold Pattern.bareName? at hname
  split at hname
  · obtain rfl := Option.some.inj hname.symm
    rw [Style.lexemes] at hts ⊢
    obtain ⟨t, r, ht, hr, rfl⟩ := List.forall₂_cons_right_iff.mp hts
    have hdefault := withDefault_of_stops hr hls (.ident name) 0
    obtain ⟨m, _, rfl, hm⟩ := hls
    obtain ⟨u, s, hu, -, rfl⟩ := List.forall₂_cons_right_iff.mp hr
    have hcolon : u.lexeme ≠ .mark .colon := by
      rw [hu.lexeme]
      rintro ⟨⟩
      simp [Mark.closes] at hm
    refine ⟨t, u :: s, 0, ⟨rfl, by rw [ht.lexeme]; rfl, ?_⟩, rfl⟩
    exact readProperty_short ht.lexeme hcolon hdefault
  · rename_i d
    obtain rfl := Option.some.inj hname.symm
    have hd : d.Supported := by
      cases hv with
      | target h => cases h
      | withDefault _ hd => exact hd
    rw [Style.lexemes, Style.lexemes] at hts ⊢
    obtain ⟨t, r, ht, hr, rfl⟩ := List.forall₂_cons_right_iff.mp hts
    have hdefault := withDefault_lexemes hd hr hls (.ident name) 0
    obtain ⟨u, s, hu, -, rfl⟩ := List.forall₂_cons_right_iff.mp hr
    have hcolon : u.lexeme ≠ .mark .colon := by rw [hu.lexeme]; decide
    have hread := readProperty_short ht.lexeme hcolon hdefault
    refine ⟨t, u :: s, _, ⟨rfl, by rw [ht.lexeme]; rfl, hread⟩, ?_⟩
    simp only [List.length_append, List.length_cons, List.length_nil]
    omega
  · cases hname

/-- A property is read back if its value is. -/
theorem exists_readProperty {k : PropertyKey} {v : Pattern} (hk : k.Supported) (hv : v.Supported)
    (hread : ReadBack y source v)
    (hts : List.Forall₂ (Stands source) ts (y.propertyLexemes (.property k v) ++ ls))
    (hls : Stops ls) : ∃ t r n, PropertyRead source (.property k v) ts n t r ∧
      n + 1 = (y.propertyLexemes (.property k v)).length := by
  rw [Style.propertyLexemes] at hts ⊢
  split at hts
  · rename_i hshort
    rw [if_pos hshort]
    obtain ⟨name, hname, rfl⟩ := Option.map_eq_some_iff.mp
      (beq_iff_eq.mp (Bool.and_eq_true_iff.mp hshort).2)
    exact exists_readProperty_short hv hname hts hls
  · rename_i hlong
    rw [if_neg hlong]
    obtain ⟨t, r, ht, hr, rfl⟩ := List.forall₂_cons_right_iff.mp hts
    obtain ⟨u, s, hu, hs, rfl⟩ := List.forall₂_cons_right_iff.mp hr
    obtain ⟨hstarts, hellipsis⟩ := startsItem_keyLexeme k
    refine ⟨t, u :: s, (y.lexemes v).length + 1, ⟨rfl, by rwa [ht.lexeme], ?_⟩, rfl⟩
    rw [readProperty.eq_def, if_neg (by rwa [ht.lexeme]), propertyKey_keyLexeme hk ht]
    simp only [if_pos hu.lexeme, hread hs hls]

/-! ## Patterns -/

theorem exists_cons_of_isTarget {p : Pattern} (h : p.IsTarget) : ∃ l ms, y.lexemes p = l :: ms ∧
    startsItem l = true ∧ l ≠ .mark .ellipsis := by
  cases h with
  | ident => exact ⟨_, _, by rw [Style.lexemes], rfl, by simp⟩
  | object => exact ⟨_, _, by rw [Style.lexemes], rfl, by simp⟩
  | array => exact ⟨_, _, by rw [Style.lexemes], rfl, by simp⟩

theorem exists_cons_of_supported {p : Pattern} (h : p.Supported) : ∃ l ms,
    y.lexemes p = l :: ms ∧ startsItem l = true := by
  cases h with
  | target h =>
    obtain ⟨l, ms, hl, hstarts, -⟩ := exists_cons_of_isTarget h
    exact ⟨l, ms, hl, hstarts⟩
  | rest h => exact ⟨_, _, by rw [Style.lexemes], rfl⟩
  | withDefault h hd =>
    obtain ⟨l, ms, hl, hstarts, -⟩ := exists_cons_of_isTarget h
    exact ⟨l, _, by rw [Style.lexemes, hl, List.cons_append], hstarts⟩

/-! ## What follows an item -/

section Tail

variable {α : Type} {items : List α} {isRest : Bool} {close : Mark} {rest : List Lexeme}

/-- Behind an item stands a comma, or nothing if the item is the last one. -/
theorem separator_eq_or (y : Style) (isRest : Bool) (items : List α) :
    y.separator isRest items.isEmpty = [.mark .comma] ∨
      items = [] ∧ y.separator isRest items.isEmpty = [] := by
  unfold Style.separator
  split
  · rename_i h
    exact Or.inr ⟨List.isEmpty_iff.mp (Bool.and_eq_true_iff.mp h).1, rfl⟩
  · exact Or.inl rfl

/-- An item is followed by a comma or by the closing bracket of its list. -/
theorem stops_tail (hclose : close.closes = true) (hrest : items = [] → rest = [.mark close]) :
    Stops (y.separator isRest items.isEmpty ++ (rest ++ ls)) := by
  rcases separator_eq_or y isRest items with h | ⟨hitems, h⟩
  · exact ⟨.comma, rest ++ ls, by rw [h]; rfl, Or.inl rfl⟩
  · exact ⟨close, ls, by rw [h, hrest hitems]; rfl, Or.inr hclose⟩

/-- The token behind an item: a comma in front of what is left of the list, or its bracket. -/
theorem exists_tail (hrest : items = [] → rest = [.mark close])
    (hts : List.Forall₂ (Stands source) ts (y.separator isRest items.isEmpty ++ (rest ++ ls))) :
    ∃ u s, ts = u :: s ∧ (u.lexeme = .mark .comma ∧ List.Forall₂ (Stands source) s (rest ++ ls) ∧
        (y.separator isRest items.isEmpty).length = 1 ∨
      u.lexeme = .mark close ∧ items = [] ∧
        (y.separator isRest items.isEmpty ++ rest).length = 1) := by
  rcases separator_eq_or y isRest items with h | ⟨hitems, h⟩
  · rw [h] at hts ⊢
    obtain ⟨u, s, hu, hs, rfl⟩ := List.forall₂_cons_right_iff.mp hts
    exact ⟨u, s, rfl, Or.inl ⟨hu.lexeme, hs, rfl⟩⟩
  · rw [h, hrest hitems] at hts ⊢
    obtain ⟨u, s, hu, -, rfl⟩ := List.forall₂_cons_right_iff.mp hts
    exact ⟨u, s, rfl, Or.inr ⟨hu.lexeme, hitems, rfl⟩⟩

end Tail

/-! ## Patterns -/

/-- Properties are read back if the first one is and the ones behind it are. -/
theorem readProperties_cons {p : PropertyPattern} {ps : List PropertyPattern}
    (hp : ∀ {ts ls}, List.Forall₂ (Stands source) ts (y.propertyLexemes p ++ ls) → Stops ls →
      ∃ t r n, PropertyRead source p ts n t r ∧ n + 1 = (y.propertyLexemes p).length)
    (hps : ∀ {ts ls}, List.Forall₂ (Stands source) ts (y.propertiesLexemes ps ++ ls) →
      readProperties source ts = .ok (ps, (y.propertiesLexemes ps).length))
    (hts : List.Forall₂ (Stands source) ts (y.propertiesLexemes (p :: ps) ++ ls)) :
    readProperties source ts = .ok (p :: ps, (y.propertiesLexemes (p :: ps)).length) := by
  have hrest : ps = [] → y.propertiesLexemes ps = [.mark .braceClose] := by
    rintro rfl
    rw [Style.propertiesLexemes]
  rw [Style.propertiesLexemes, List.append_assoc, List.append_assoc] at hts
  obtain ⟨t, r, n, ⟨rfl, hstarts, hread⟩, hn⟩ := hp hts (stops_tail rfl hrest)
  have htail := List.forall₂_drop_append _ _ _ hts
  rw [← hn, List.drop_succ_cons] at htail
  have ht : t.lexeme ≠ .mark .braceClose := fun h => by rw [h] at hstarts; cases hstarts
  rw [Style.propertiesLexemes, List.length_append, ← hn]
  obtain ⟨u, s, hs, ⟨hu, hstand, hlen⟩ | ⟨hu, rfl, hlen⟩⟩ := exists_tail hrest htail
  · rw [readProperties_comma ht hread hs hu (hps hstand), List.length_append, hlen,
      Nat.add_comm 1 n, Nat.add_assoc (n + 1) 1]
  · rw [readProperties_last ht hread hs hu, hlen, Nat.add_comm 1 n]

/-- Elements are read back if the first one is and the ones behind it are. -/
theorem readElements_cons {p : Pattern} {es : List (Option Pattern)} (hp : p.Supported)
    (hread : ReadBack y source p)
    (hes : ∀ {ts ls}, List.Forall₂ (Stands source) ts (y.elementsLexemes es ++ ls) →
      readElements source ts = .ok (es, (y.elementsLexemes es).length))
    (hts : List.Forall₂ (Stands source) ts (y.elementsLexemes (some p :: es) ++ ls)) :
    readElements source ts = .ok (some p :: es, (y.elementsLexemes (some p :: es)).length) := by
  have hrest : es = [] → y.elementsLexemes es = [.mark .bracketClose] := by
    rintro rfl
    rw [Style.elementsLexemes]
  rw [Style.elementsLexemes, List.append_assoc, List.append_assoc] at hts
  have hp' := hread hts (stops_tail rfl hrest)
  have htail := List.forall₂_drop_append _ _ _ hts
  obtain ⟨l, ms, hl, hstarts⟩ := exists_cons_of_supported (y := y) hp
  rw [hl] at hts
  obtain ⟨t, r, ht, -, rfl⟩ := List.forall₂_cons_right_iff.mp hts
  have ht : t.lexeme ≠ .mark .bracketClose ∧ t.lexeme ≠ .mark .comma := by
    constructor <;> (intro h; rw [← ht.lexeme, h] at hstarts; cases hstarts)
  rw [Style.elementsLexemes, List.length_append]
  obtain ⟨u, s, hs, ⟨hu, hstand, hlen⟩ | ⟨hu, rfl, hlen⟩⟩ := exists_tail hrest htail
  · rw [readElements_comma ht hp' hs hu (hes hstand), List.length_append, hlen, Nat.add_assoc]
  · rw [readElements_last ht hp' hs hu, hlen]

-- The induction is on the grammar: a reader goes down where a pattern has parts. What follows
-- the pattern stays free, since each part is read in front of what is left of the whole.
mutual

theorem readTarget_lexemes : ∀ {p : Pattern}, p.IsTarget → ∀ {ts : List Token} {ls : List Lexeme},
    List.Forall₂ (Stands source) ts (y.lexemes p ++ ls) →
      readTarget source ts = .ok (p, (y.lexemes p).length)
  | _, .ident _, ts, ls, hts => by
    rw [Style.lexemes] at hts ⊢
    obtain ⟨t, r, ht, -, rfl⟩ := List.forall₂_cons_right_iff.mp hts
    rw [readTarget, ht.lexeme]
    rfl
  | _, .object hps, ts, ls, hts => by
    rw [Style.lexemes] at hts ⊢
    obtain ⟨t, r, ht, hr, rfl⟩ := List.forall₂_cons_right_iff.mp hts
    rw [readTarget, ht.lexeme]
    simp only [readProperties_lexemes hps hr]
    rfl
  | _, .array hes, ts, ls, hts => by
    rw [Style.lexemes] at hts ⊢
    obtain ⟨t, r, ht, hr, rfl⟩ := List.forall₂_cons_right_iff.mp hts
    rw [readTarget, ht.lexeme]
    simp only [readElements_lexemes hes hr]
    rfl

/-- A pattern is read back in front of a comma or a closing bracket. -/
theorem readPattern_lexemes : ∀ {p : Pattern}, p.Supported → ReadBack y source p
  | p, .target hp, ts, ls, hts, hls => by
    have hread := readTarget_lexemes hp hts
    have hrest := List.forall₂_drop_append _ _ _ hts
    obtain ⟨l, ms, hl, -, hne⟩ := exists_cons_of_isTarget (y := y) hp
    rw [hl] at hts
    obtain ⟨t, r, ht, -, rfl⟩ := List.forall₂_cons_right_iff.mp hts
    rw [readPattern, if_neg (by rwa [ht.lexeme]), hread]
    simp only [withDefault_of_stops hrest hls]
  | _, .rest hp, ts, ls, hts, hls => by
    rw [Style.lexemes] at hts ⊢
    obtain ⟨t, r, ht, hr, rfl⟩ := List.forall₂_cons_right_iff.mp hts
    rw [readPattern, if_pos ht.lexeme, readTarget_lexemes hp hr]
    rfl
  | _, .withDefault hp hd, ts, ls, hts, hls => by
    rw [Style.lexemes, List.append_assoc] at hts
    have hread := readTarget_lexemes hp hts
    have hrest := List.forall₂_drop_append _ _ _ hts
    obtain ⟨l, ms, hl, -, hne⟩ := exists_cons_of_isTarget (y := y) hp
    rw [hl] at hts
    obtain ⟨t, r, ht, -, rfl⟩ := List.forall₂_cons_right_iff.mp hts
    rw [readPattern, if_neg (by rwa [ht.lexeme]), hread]
    simp only [withDefault_lexemes hd hrest hls]
    rw [Style.lexemes, List.length_append]

theorem readProperties_lexemes : ∀ {ps : List PropertyPattern}, Pattern.SupportedProperties ps →
    ∀ {ts : List Token} {ls : List Lexeme},
      List.Forall₂ (Stands source) ts (y.propertiesLexemes ps ++ ls) →
        readProperties source ts = .ok (ps, (y.propertiesLexemes ps).length)
  | _, .nil, ts, ls, hts => by
    rw [Style.propertiesLexemes] at hts ⊢
    obtain ⟨t, r, ht, -, rfl⟩ := List.forall₂_cons_right_iff.mp hts
    rw [readProperties, if_pos ht.lexeme]
    rfl
  | _, .property hk hv hps, ts, ls, hts => by
    exact readProperties_cons (exists_readProperty hk hv (readPattern_lexemes hv))
      (readProperties_lexemes hps) hts
  | _, .rest hp hps, ts, ls, hts => by
    refine readProperties_cons (fun {ts ls} hts _ => ?_) (readProperties_lexemes hps) hts
    rw [Style.propertyLexemes] at hts ⊢
    obtain ⟨t, r, ht, hr, rfl⟩ := List.forall₂_cons_right_iff.mp hts
    refine ⟨t, r, _, ⟨rfl, by rw [ht.lexeme]; rfl, ?_⟩, rfl⟩
    rw [readProperty.eq_def, if_pos ht.lexeme, readTarget_lexemes hp hr]

theorem readElements_lexemes : ∀ {es : List (Option Pattern)}, Pattern.SupportedElements es →
    ∀ {ts : List Token} {ls : List Lexeme},
      List.Forall₂ (Stands source) ts (y.elementsLexemes es ++ ls) →
        readElements source ts = .ok (es, (y.elementsLexemes es).length)
  | _, .nil, ts, ls, hts => by
    rw [Style.elementsLexemes] at hts ⊢
    obtain ⟨t, r, ht, -, rfl⟩ := List.forall₂_cons_right_iff.mp hts
    rw [readElements, if_pos ht.lexeme]
    rfl
  | _, .hole hes, ts, ls, hts => by
    rw [Style.elementsLexemes] at hts ⊢
    obtain ⟨t, r, ht, hr, rfl⟩ := List.forall₂_cons_right_iff.mp hts
    rw [readElements, if_neg (by rw [ht.lexeme]; decide), if_pos ht.lexeme,
      readElements_lexemes hes hr]
    rfl
  | _, .element hp hes, ts, ls, hts =>
    readElements_cons hp (readPattern_lexemes hp) (readElements_lexemes hes) hts

end

/-! ## Parameter lists -/

/-- Parameters are read back. -/
theorem readParameters_lexemes : ∀ {ps : List Pattern}, (∀ p ∈ ps, p.Supported) →
    ∀ {ts : List Token} {ls : List Lexeme},
      List.Forall₂ (Stands source) ts (y.parametersLexemes ps ++ ls) →
        readParameters source ts = .ok (ps, (y.parametersLexemes ps).length)
  | [], _, ts, ls, hts => by
    rw [Style.parametersLexemes] at hts ⊢
    obtain ⟨t, r, ht, -, rfl⟩ := List.forall₂_cons_right_iff.mp hts
    rw [readParameters, if_pos ht.lexeme]
    rfl
  | p :: ps, h, ts, ls, hts => by
    obtain ⟨hp, hps⟩ := List.forall_mem_cons.mp h
    have hrest : ps = [] → y.parametersLexemes ps = [.mark .parenClose] := by
      rintro rfl
      rw [Style.parametersLexemes]
    rw [Style.parametersLexemes, List.append_assoc, List.append_assoc] at hts
    have hread := readParameter_of_readPattern (readPattern_lexemes hp hts (stops_tail rfl hrest))
    have htail := List.forall₂_drop_append _ _ _ hts
    obtain ⟨l, ms, hl, hstarts⟩ := exists_cons_of_supported (y := y) hp
    rw [hl] at hts
    obtain ⟨t, r, ht, -, rfl⟩ := List.forall₂_cons_right_iff.mp hts
    have ht : t.lexeme ≠ .mark .parenClose := fun h => by
      rw [← ht.lexeme, h] at hstarts
      cases hstarts
    rw [Style.parametersLexemes, List.length_append]
    obtain ⟨u, s, hs, ⟨hu, hstand, hlen⟩ | ⟨hu, rfl, hlen⟩⟩ := exists_tail hrest htail
    · rw [readParameters_comma ht hread hs hu (readParameters_lexemes hps hstand),
        List.length_append, hlen, Nat.add_assoc]
    · rw [readParameters_last ht hread hs hu, hlen]

end CallContract.Source
