import CallContract.Proofs.Source.Checked.Module
import CallContract.Proofs.Source.Recovery.Parameters

/-!
# Functions with parameters that cannot be read

A function declaration as tokens (`FunctionTokens`) has a head, parameters that commas divide, and a
balanced body. The words of its head lead to its parameters (`readFunction_head`), so it is read
exactly if none of these is read in part (`FunctionTokens.readFunction_recovered`,
`FunctionTokens.readFunction_readInPart`). In a text, it is declared with one pattern for each
parameter then, and not at all otherwise (`declarations_of_functionTokens`), wherever a statement
starts (`StartsStatement`).
-/

namespace CallContract.Source

variable {text : List Char} {size : Nat} {t : Token} {ts r : List Token}

/-! ## Heads of functions -/

/-- How a function is exported, if it is. -/
inductive Exported where
  | no
  | named
  | asDefault
deriving DecidableEq

/-- The words in front of an exported function. -/
def Exported.lexemes : Exported → List Lexeme
  | no => []
  | named => [.word "export"]
  | asDefault => [.word "export", .word "default"]

/-- What stands in front of the parameters of a function declaration. Only a default export goes
without a name. -/
structure FunctionHead where
  exported : Exported := .no
  isAsync : Bool := false
  isGenerator : Bool := false
  name : Option String
  named : name = none → exported = .asDefault

namespace FunctionHead

/-- The name that a function is declared under. -/
def declaredName (h : FunctionHead) : String := h.name.getD "default"

/-- The lexemes of the head of a function. -/
def lexemes (h : FunctionHead) : List Lexeme :=
  h.exported.lexemes ++ ((if h.isAsync then [.word "async"] else []) ++
    .word "function" :: ((if h.isGenerator then [.mark .star] else []) ++
      (h.name.map Lexeme.word).toList))

end FunctionHead

theorem startsWithWord_self {w : String} (h : t.lexeme = .word w) :
    startsWithWord w (t :: r) = true := by
  rw [startsWithWord, h]
  exact beq_self_eq_true _

theorem startsWithWord_ne {w : String} (h : t.lexeme ≠ .word w) :
    startsWithWord w (t :: r) = false :=
  beq_false_of_ne h

theorem startsWithMark_ne {m : Mark} (h : t.lexeme ≠ .mark m) :
    startsWithMark m (t :: r) = false :=
  beq_false_of_ne h

/-- The words of an export are seen as such. -/
theorem exportWords_of_lexemes {x : Exported} {xs us : List Token}
    (hxs : xs.map Token.lexeme = x.lexemes)
    (hus : startsWithWord "export" us = false ∧ startsWithWord "default" us = false) :
    (startsWithWord "export" (xs ++ us) && startsWithWord "default" ((xs ++ us).drop 1)) =
      decide (x = .asDefault) ∧
    oneIf (startsWithWord "export" (xs ++ us)) + oneIf (decide (x = .asDefault)) = xs.length := by
  cases x with
  | no =>
    obtain rfl : xs = [] := List.map_eq_nil_iff.mp hxs
    rw [List.nil_append, hus.1]
    exact ⟨rfl, rfl⟩
  | named =>
    obtain ⟨e, rfl, he⟩ := List.map_eq_singleton_iff.mp hxs
    rw [List.cons_append, List.nil_append, List.drop_succ_cons, List.drop_zero,
      startsWithWord_self he, hus.2]
    exact ⟨rfl, rfl⟩
  | asDefault =>
    obtain ⟨e, ys, rfl, he, hys⟩ := List.map_eq_cons_iff.mp hxs
    obtain ⟨d, rfl, hd⟩ := List.map_eq_singleton_iff.mp hys
    rw [List.cons_append, List.cons_append, List.nil_append, List.drop_succ_cons, List.drop_zero,
      startsWithWord_self he, startsWithWord_self hd]
    exact ⟨rfl, rfl⟩

/-- The word in front of an asynchronous function is seen as such. -/
theorem asyncWord_of_lexemes {a : Bool} {as us : List Token} {f : Token}
    (has : as.map Token.lexeme = if a then [.word "async"] else [])
    (hf : f.lexeme = .word "function") :
    oneIf (startsWithWord "async" (as ++ f :: us) &&
      startsWithWord "function" ((as ++ f :: us).drop 1)) = as.length := by
  cases a with
  | false =>
    obtain rfl : as = [] := List.map_eq_nil_iff.mp has
    rw [List.nil_append, startsWithWord_ne (by rw [hf]; decide)]
    rfl
  | true =>
    obtain ⟨a, rfl, ha⟩ := List.map_eq_singleton_iff.mp has
    rw [List.cons_append, List.nil_append, List.drop_succ_cons, List.drop_zero,
      startsWithWord_self ha, startsWithWord_self hf]
    rfl

/-- Neither word of an export stands in front of a function that may be asynchronous. -/
theorem not_exportWord_of_lexemes {a : Bool} {as : List Token} {f : Token}
    (has : as.map Token.lexeme = if a then [.word "async"] else [])
    (hf : f.lexeme = .word "function") : startsWithWord "export" (as ++ f :: r) = false ∧
      startsWithWord "default" (as ++ f :: r) = false := by
  cases a with
  | false =>
    obtain rfl : as = [] := List.map_eq_nil_iff.mp has
    rw [List.nil_append, startsWithWord_ne (by rw [hf]; decide),
      startsWithWord_ne (by rw [hf]; decide)]
    exact ⟨rfl, rfl⟩
  | true =>
    obtain ⟨a, rfl, ha⟩ := List.map_eq_singleton_iff.mp has
    rw [List.cons_append, startsWithWord_ne (by rw [ha]; decide),
      startsWithWord_ne (by rw [ha]; decide)]
    exact ⟨rfl, rfl⟩

/-- The star of a generator is seen as such. -/
theorem star_of_lexemes {g : Bool} {ss us : List Token}
    (hss : ss.map Token.lexeme = if g then [.mark .star] else [])
    (hus : startsWithMark .star us = false) :
    oneIf (startsWithMark .star (ss ++ us)) = ss.length := by
  cases g with
  | false =>
    obtain rfl : ss = [] := List.map_eq_nil_iff.mp hss
    rw [List.nil_append, hus]
    rfl
  | true =>
    obtain ⟨s, rfl, hs⟩ := List.map_eq_singleton_iff.mp hss
    rw [List.cons_append, startsWithMark, hs]
    rfl

/-- Behind its first words, a function is read by its name, or as the default if it may be. -/
theorem readFunction_words {x : Exported} {a g : Bool} {xs as ss us : List Token} {f : Token}
    (hxs : xs.map Token.lexeme = x.lexemes)
    (has : as.map Token.lexeme = if a then [.word "async"] else [])
    (hf : f.lexeme = .word "function") (hss : ss.map Token.lexeme = if g then [.mark .star] else [])
    (hus : startsWithMark .star us = false) :
    readFunction text size (xs ++ (as ++ f :: (ss ++ us))) =
      match firstWord? us with
      | some name => (readDeclared text (us.drop 1)).map fun d =>
        ((name, d.1), xs.length + as.length + (1 + ss.length + 1 + d.2))
      | none =>
        if x = .asDefault then (readDeclared text us).map fun d =>
          (("default", d.1), xs.length + as.length + (1 + ss.length + d.2))
        else .error .otherForm := by
  obtain ⟨hdefault, hx⟩ := exportWords_of_lexemes hxs
    (not_exportWord_of_lexemes (r := ss ++ us) has hf)
  have hbehind : (f :: (ss ++ us)).drop (1 + ss.length) = us := by
    rw [Nat.add_comm, List.drop_succ_cons, List.drop_left]
  have hlater : (ss ++ us).drop (1 + ss.length) = us.drop 1 := by
    rw [Nat.add_comm, ← List.drop_drop, List.drop_left]
  rw [readFunction]
  simp only [hdefault, hx, List.drop_left, asyncWord_of_lexemes has hf, startsWithWord_self hf,
    if_true, List.drop_succ_cons, List.drop_zero, star_of_lexemes hss hus, hbehind, hlater]
  cases firstWord? us with
  | some name => cases readDeclared text (us.drop 1) <;> rfl
  | none => cases x <;> cases readDeclared text us <;> rfl

/-- Behind its head, a function is read as its parameters and its body are. -/
theorem readFunction_head {h : FunctionHead} (hts : ts.map Token.lexeme = h.lexemes)
    (ht : t.lexeme = .mark .parenOpen) : readFunction text size (ts ++ t :: r) =
      (readDeclared text (t :: r)).map fun x => ((h.declaredName, x.1), ts.length + x.2) := by
  obtain ⟨xs, us, rfl, hxs, hus⟩ := List.map_eq_append_iff.mp hts
  obtain ⟨as, vs, rfl, has, hvs⟩ := List.map_eq_append_iff.mp hus
  obtain ⟨f, ws, rfl, hf, hws⟩ := List.map_eq_cons_iff.mp hvs
  obtain ⟨ss, ns, rfl, hss, hns⟩ := List.map_eq_append_iff.mp hws
  have hall : xs ++ (as ++ f :: (ss ++ ns)) ++ t :: r =
      xs ++ (as ++ f :: (ss ++ (ns ++ t :: r))) := by simp
  rw [hall, FunctionHead.declaredName]
  cases hname : h.name with
  | none =>
    rw [hname] at hns
    obtain rfl : ns = [] := List.map_eq_nil_iff.mp hns
    have hnone : firstWord? (t :: r) = none := by rw [firstWord?, ht]
    rw [List.nil_append, readFunction_words hxs has hf hss (startsWithMark_ne (by rw [ht]; decide)),
      hnone]
    simp only [h.named hname, if_true]
    congr 1
    funext d
    simp only [List.length_append, List.length_cons, List.length_nil, Option.getD_none]
    congr 1
    omega
  | some name =>
    rw [hname] at hns
    obtain ⟨n, rfl, hn⟩ := List.map_eq_singleton_iff.mp hns
    have hfirst : firstWord? (n :: t :: r) = some name := by rw [firstWord?, hn]
    rw [List.cons_append, List.nil_append,
      readFunction_words hxs has hf hss (startsWithMark_ne (by rw [hn]; simp)), hfirst]
    simp only [List.drop_succ_cons, List.drop_zero]
    congr 1
    funext d
    simp only [List.length_append, List.length_cons, List.length_nil, Option.getD_some]
    congr 1
    omega

/-! ## Functions as tokens -/

theorem blockRest?_append (rest : List Token) : ∀ {body : List Token} {d e : Nat},
    depthAfterAll? d body = some e →
      blockRest? d (body ++ rest) = (blockRest? e rest).map (· + body.length)
  | [], d, e, h => by
    obtain rfl := Option.some.inj h
    simp
  | t :: body, d, e, h => by
    obtain ⟨c, hc, hbody⟩ := Option.bind_eq_some_iff.mp h
    rw [List.cons_append, blockRest?, hc]
    simp only
    rw [blockRest?_append rest hbody, Option.map_map]
    rfl

/-- A block ends with the brace behind balanced tokens. -/
theorem blockTokens_of_balanced {o c : Token} {body rest : List Token}
    (ho : o.lexeme = .mark .braceOpen) (hbody : Balanced body) (hc : c.lexeme = .mark .braceClose) :
    blockTokens (o :: (body ++ c :: rest)) = .ok (body.length + 2) := by
  have hrest : blockRest? 0 (c :: rest) = some 1 := by rw [blockRest?, hc]; rfl
  rw [blockTokens, if_pos ho, blockRest?_append (c :: rest) hbody, hrest, Option.map_some]
  simp only
  congr 1
  omega

/-- The tokens of a function declaration : a head, parameters between parentheses, and a balanced
body between braces. -/
structure FunctionTokens where
  head : FunctionHead
  headTokens : List Token
  parenOpen : Token
  params : List (List Token)
  list : List Token
  parenClose : Token
  braceOpen : Token
  body : List Token
  braceClose : Token
  head_lexemes : headTokens.map Token.lexeme = head.lexemes
  parenOpen_lexeme : parenOpen.lexeme = .mark .parenOpen
  divided : Divided params list
  parenClose_lexeme : parenClose.lexeme = .mark .parenClose
  braceOpen_lexeme : braceOpen.lexeme = .mark .braceOpen
  balanced : Balanced body
  braceClose_lexeme : braceClose.lexeme = .mark .braceClose

namespace FunctionTokens

variable (f : FunctionTokens)

/-- All tokens of a function. -/
def tokens : List Token :=
  f.headTokens ++ f.parenOpen ::
    (f.list ++ f.parenClose :: f.braceOpen :: (f.body ++ [f.braceClose]))

/-- The place at which a function starts. -/
def start? : Option Nat := f.tokens.head?.map Token.start

theorem getLast?_tokens : f.tokens.getLast? = some f.braceClose := by
  rw [tokens, List.getLast?_append, List.getLast?_cons, List.getLast?_append, List.getLast?_cons,
    List.getLast?_cons, List.getLast?_concat]
  rfl

/-- A function starts with a word. -/
theorem exists_word : ∃ t r w, f.tokens = t :: r ∧ t.lexeme = .word w := by
  have hword : ∃ l ls w, f.head.lexemes = l :: ls ∧ l = .word w := by
    rw [FunctionHead.lexemes]
    cases f.head.exported <;> cases f.head.isAsync <;> exact ⟨_, _, _, rfl, rfl⟩
  obtain ⟨l, ls, w, hls, rfl⟩ := hword
  obtain ⟨t, r, hts, ht, -⟩ := List.map_eq_cons_iff.mp (f.head_lexemes.trans hls)
  exact ⟨t, _, w, by rw [tokens, hts, List.cons_append], ht⟩

variable {f} {rest : List Token}

theorem tokens_append : f.tokens ++ rest = f.headTokens ++ f.parenOpen ::
    (f.list ++ f.parenClose :: (f.braceOpen :: (f.body ++ f.braceClose :: rest))) := by
  simp [tokens]

theorem readFunction_eq : readFunction text size (f.tokens ++ rest) =
    (readParameters text
      (f.list ++ f.parenClose :: (f.braceOpen :: (f.body ++ f.braceClose :: rest)))).bind fun x =>
      (blockTokens ((f.list ++ f.parenClose :: (f.braceOpen ::
        (f.body ++ f.braceClose :: rest))).drop x.2)).map fun m =>
          ((f.head.declaredName, x.1), f.headTokens.length + (x.2 + 1 + m)) := by
  rw [tokens_append, readFunction_head f.head_lexemes f.parenOpen_lexeme, readDeclared,
    readParameterList, if_pos f.parenOpen_lexeme]
  cases readParameters text (f.list ++ f.parenClose ::
    (f.braceOpen :: (f.body ++ f.braceClose :: rest))) with
  | error e => rfl
  | ok x =>
    obtain ⟨ps, n⟩ := x
    simp only [Except.map, bind, Except.bind, List.drop_succ_cons]
    cases blockTokens ((f.list ++ f.parenClose :: (f.braceOpen ::
      (f.body ++ f.braceClose :: rest))).drop n) <;> rfl

theorem sliceable_list (hs : Checked.Sliceable text (f.tokens ++ rest)) : Checked.Sliceable text
    (f.list ++ f.parenClose :: (f.braceOpen :: (f.body ++ f.braceClose :: rest))) :=
  sliceable_within hs ⟨f.headTokens ++ [f.parenOpen], [], by simp [tokens]⟩

variable (size)

/-- If no parameter is read in part, the function is read, and each of its parameters is what it is
when it stands alone. -/
theorem readFunction_recovered (hs : Checked.Sliceable text (f.tokens ++ rest))
    (hno : ∀ p ∈ f.params, ¬ReadInPart text f.parenClose p) :
    ∃ bs, List.Forall₂ (Recovered text f.parenClose) f.params bs ∧
      readFunction text size (f.tokens ++ rest) =
        .ok ((f.head.declaredName, bs), f.tokens.length) := by
  obtain ⟨bs, hbs, hread⟩ :=
    readParameters_divided f.parenClose_lexeme f.divided (sliceable_list hs) hno
  refine ⟨bs, hbs, ?_⟩
  have hrest : (f.list ++ f.parenClose :: (f.braceOpen :: (f.body ++ f.braceClose :: rest))).drop
      (f.list.length + 1) = f.braceOpen :: (f.body ++ f.braceClose :: rest) := by
    rw [← List.drop_drop, List.drop_left]
    rfl
  rw [readFunction_eq, hread]
  simp only [Except.bind, hrest,
    blockTokens_of_balanced f.braceOpen_lexeme f.balanced f.braceClose_lexeme, Except.map, tokens,
    List.length_append, List.length_cons, List.length_nil]
  congr 2
  omega

/-- If a parameter is read in part, the function is not read. -/
theorem readFunction_readInPart (hs : Checked.Sliceable text (f.tokens ++ rest))
    (hpart : ∃ p ∈ f.params, ReadInPart text f.parenClose p) :
    readFunction text size (f.tokens ++ rest) = .error .otherForm := by
  rw [readFunction_eq,
    readParameters_readInPart f.parenClose_lexeme f.divided (sliceable_list hs) hpart]
  rfl

end FunctionTokens

/-! ## Functions in a text -/

/-- Reading the statements of `ts` one after another comes to `us` : those in front are read, and a
statement starts there. -/
inductive StartsStatement (text : List Char) (size : Nat) : List Token → List Token → Prop
  | here {ts : List Token} : StartsStatement text size ts ts
  | semicolon {t : Token} {r us : List Token} : t.lexeme = .mark .semicolon →
    StartsStatement text size r us → StartsStatement text size (t :: r) us
  | behind {t : Token} {r us : List Token} {g : Option (String × List Pattern)} {n : Nat} :
    t.lexeme ≠ .mark .semicolon → readStatement text size (t :: r) = .ok (g, n) →
    StartsStatement text size (r.drop n) us → StartsStatement text size (t :: r) us

namespace StartsStatement

variable {us : List Token}

theorem suffix (h : StartsStatement text size ts us) : us <:+ ts := by
  induction h with
  | here => exact List.suffix_rfl
  | semicolon _ _ ih => exact ih.trans (List.suffix_cons _ _)
  | behind _ _ _ ih => exact (ih.trans (List.drop_suffix _ _)).trans (List.suffix_cons _ _)

/-- The statements of all tokens are those in front and those from there on. -/
theorem exists_front (h : StartsStatement text size ts us) :
    ∃ front, statements text size ts = (statements text size us).map (front ++ ·) := by
  induction h with
  | @here ts => exact ⟨[], by cases statements text size ts <;> rfl⟩
  | @semicolon t r us ht _ ih =>
    obtain ⟨front, hfront⟩ := ih
    exact ⟨front, by rw [statements, if_pos ht, hfront]⟩
  | @behind t r us g n ht hg _ ih =>
    obtain ⟨front, hfront⟩ := ih
    refine ⟨⟨t, r.take n, g⟩ :: front, ?_⟩
    rw [statements_cons ht hg, hfront]
    cases statements text size us <;> rfl

end StartsStatement

/-- A statement with a function is declared. -/
theorem exists_declaration {s : Statement} {name : String} {ps : List Pattern}
    (hf : s.function = some (name, ps)) : ∀ {ss : List Statement} (previous : Option Nat), s ∈ ss →
      ∃ d ∈ declarations previous ss, d.name = name ∧ d.params = ps ∧ d.start = s.start ∧
        d.stop = s.stop
  | s' :: ss, previous, h => by
    rcases List.mem_cons.mp h with rfl | h
    · rw [declarations, hf]
      exact ⟨_, List.mem_cons_self, rfl, rfl, rfl, rfl⟩
    · obtain ⟨d, hd, hall⟩ := exists_declaration hf (some s'.stop) h
      refine ⟨d, ?_, hall⟩
      rw [declarations]
      split
      · exact hd
      · exact List.mem_cons_of_mem _ hd

section Texts

variable {source : List Char} {l : Lexed} {f : FunctionTokens} {rest : List Token}

/-- A text is read if its statements are. -/
theorem readModule_of_tokenize (hl : tokenize source = .ok l) : readModule source =
    (statements source l.size l.tokens).map fun ss => ⟨declarations none ss, l.comments⟩ := by
  rw [readModule, hl]
  simp only
  rw [readStatements_eq]
  cases statements source l.size l.tokens <;> rfl

/-- Different statements start at different places. -/
theorem eq_of_start_eq (hl : tokenize source = .ok l) {ss : List Statement}
    (hss : statements source l.size l.tokens = .ok ss) {a b : Statement} (ha : a ∈ ss) (hb : b ∈ ss)
    (h : a.start = b.start) : a = b := by
  have horder := tokensInOrder_of_tokenize hl
  have hlt : ss.Pairwise fun a b => a.start < b.start := by
    refine (statements_pairwise horder hss).imp_of_mem fun {a b} ha _ hab => ?_
    exact Nat.lt_of_lt_of_le (start_lt_stop_of_mem_statements horder hss ha) hab
  have hnodup : (ss.map Statement.start).Nodup := by
    rw [List.nodup_iff_pairwise_ne, List.pairwise_map]
    exact hlt.imp fun hab => Nat.ne_of_lt hab
  exact List.inj_on_of_nodup_map hnodup ha hb h

variable (size) in
/-- A function that is read is the next statement, and what is behind it is left. -/
theorem statements_recovered (hs : Checked.Sliceable source (f.tokens ++ rest))
    (hno : ∀ p ∈ f.params, ¬ReadInPart source f.parenClose p) :
    ∃ s bs, List.Forall₂ (Recovered source f.parenClose) f.params bs ∧
      s.function = some (f.head.declaredName, bs) ∧ some s.start = f.start? ∧
      s.stop = f.braceClose.stop ∧
      statements source size (f.tokens ++ rest) = (statements source size rest).map (s :: ·) := by
  obtain ⟨bs, hbs, hread⟩ := FunctionTokens.readFunction_recovered size hs hno
  obtain ⟨t, others, w, hts, ht⟩ := f.exists_word
  have hlast := f.getLast?_tokens
  rw [hts] at hread hlast
  rw [List.getLast?_cons] at hlast
  have hstatement : readStatement source size (t :: (others ++ rest)) =
      .ok (some (f.head.declaredName, bs), others.length) := by
    rw [readStatement, ← List.cons_append, hread]
    rfl
  refine ⟨⟨t, others, some (f.head.declaredName, bs)⟩, bs, hbs, rfl, ?_, ?_, ?_⟩
  · rw [FunctionTokens.start?, hts]
    rfl
  · exact congrArg Token.stop (Option.some.inj hlast)
  · rw [hts, List.cons_append, statements_cons (by rw [ht]; simp) hstatement, List.take_left,
      List.drop_left]

/-- Where a function is not read, the next statement declares none. -/
theorem statements_readInPart (hs : Checked.Sliceable source (f.tokens ++ rest))
    (hpart : ∃ p ∈ f.params, ReadInPart source f.parenClose p) {ss : List Statement}
    (hss : statements source size (f.tokens ++ rest) = .ok ss) :
    ∃ s ∈ ss, s.function = none ∧ some s.start = f.start? := by
  have hread := FunctionTokens.readFunction_readInPart size hs hpart
  obtain ⟨t, others, w, hts, ht⟩ := f.exists_word
  rw [hts, List.cons_append] at hread hss
  cases hstatement : readStatement source size (t :: (others ++ rest)) with
  | error e =>
    rw [statements, if_neg (by rw [ht]; simp), hstatement] at hss
    cases hss
  | ok x =>
    obtain ⟨g, n⟩ := x
    have hnone : g = none := by
      rw [readStatement, hread] at hstatement
      simp only at hstatement
      split at hstatement
      · cases hstatement
      · exact (Prod.mk.inj (Except.ok.inj hstatement)).1.symm
    subst hnone
    rw [statements_cons (by rw [ht]; simp) hstatement] at hss
    obtain ⟨ss', -, rfl⟩ := eq_ok_of_map_eq hss
    refine ⟨_, List.mem_cons_self, rfl, ?_⟩
    rw [FunctionTokens.start?, hts]
    rfl

/-- A function with a balanced body whose parameters are divided by commas, at a place where a
top-level statement starts. If no parameter is read in part, the text is read if what follows is,
and the function is declared with one pattern for each parameter : what the parameter is when it
stands alone. If one is read in part, no function is declared there. -/
theorem declarations_of_functionTokens (hl : tokenize source = .ok l)
    (hat : StartsStatement source l.size l.tokens (f.tokens ++ rest)) :
    ((∀ p ∈ f.params, ¬ReadInPart source f.parenClose p) →
      ((∃ file, readModule source = .ok file) ↔ ∃ ss, statements source l.size rest = .ok ss) ∧
      ∀ file, readModule source = .ok file → ∃ d ∈ file.declarations,
        d.name = f.head.declaredName ∧
        List.Forall₂ (Recovered source f.parenClose) f.params d.params ∧
        some d.start = f.start? ∧ d.stop = f.braceClose.stop) ∧
    ((∃ p ∈ f.params, ReadInPart source f.parenClose p) →
      ∀ file, readModule source = .ok file → ∀ d ∈ file.declarations, some d.start ≠ f.start?) := by
  have hs : Checked.Sliceable source (f.tokens ++ rest) :=
    sliceable_within (Checked.sliceable_of_tokenize hl) hat.suffix.isInfix
  obtain ⟨front, hfront⟩ := hat.exists_front
  rw [readModule_of_tokenize hl]
  refine ⟨fun hno => ?_, fun hpart file hfile d hd hstart => ?_⟩
  · obtain ⟨s, bs, hbs, hfunction, hstart, hstop, hnext⟩ := statements_recovered l.size hs hno
    rw [hfront, hnext]
    refine ⟨?_, fun file hfile => ?_⟩
    · cases statements source l.size rest with
      | error e => exact ⟨fun ⟨_, h⟩ => (nomatch h), fun ⟨_, h⟩ => (nomatch h)⟩
      | ok ss => exact ⟨fun _ => ⟨ss, rfl⟩, fun _ => ⟨_, rfl⟩⟩
    · obtain ⟨ss, hss, rfl⟩ := eq_ok_of_map_eq hfile
      obtain ⟨ss', hss', rfl⟩ := eq_ok_of_map_eq hss
      obtain ⟨ss'', -, rfl⟩ := eq_ok_of_map_eq hss'
      obtain ⟨d, hd, hname, hparams, hdstart, hdstop⟩ := exists_declaration hfunction none
        (List.mem_append_right front (List.mem_cons_self (a := s) (l := ss'')))
      exact ⟨d, hd, hname, hparams ▸ hbs, by rw [hdstart, hstart], by rw [hdstop, hstop]⟩
  · obtain ⟨ss, hss, rfl⟩ := eq_ok_of_map_eq hfile
    have hall := hss
    rw [hfront] at hss
    obtain ⟨ss', hss', rfl⟩ := eq_ok_of_map_eq hss
    obtain ⟨s, hmem, hnone, hsstart⟩ := statements_readInPart hs hpart hss'
    obtain ⟨pre, s', post, heq, hfunction, hdstart, -⟩ := mem_declarations hd
    have hsame : s' = s := by
      refine eq_of_start_eq hl hall (by rw [heq]; simp) (List.mem_append_right front hmem) ?_
      exact Option.some.inj ((hdstart ▸ hstart).trans hsstart.symm)
    rw [hsame, hnone] at hfunction
    cases hfunction

end Texts

/-! ### A parameter that cannot be read -/

/-- In the first parameter a number stands where a name is bound. -/
def unreadableText : String := "function f(\x7ba: 1\x7d, x) \x7b\x7d"

/-- The tokens of its first parameter. -/
def unreadableParameter : List Token :=
  [⟨.mark .braceOpen, 11, 12, false⟩, ⟨.word "a", 12, 13, false⟩, ⟨.mark .colon, 13, 14, false⟩,
    ⟨.number "1", 15, 16, false⟩, ⟨.mark .braceClose, 16, 17, false⟩]

/-- All its tokens. -/
def unreadableTokens : FunctionTokens where
  head := { name := some "f", named := nofun }
  headTokens := [⟨.word "function", 0, 8, false⟩, ⟨.word "f", 9, 10, false⟩]
  parenOpen := ⟨.mark .parenOpen, 10, 11, false⟩
  params := [unreadableParameter, [⟨.word "x", 19, 20, false⟩]]
  list := unreadableParameter ++ [⟨.mark .comma, 17, 18, false⟩, ⟨.word "x", 19, 20, false⟩]
  parenClose := ⟨.mark .parenClose, 20, 21, false⟩
  braceOpen := ⟨.mark .braceOpen, 22, 23, false⟩
  body := []
  braceClose := ⟨.mark .braceClose, 23, 24, false⟩
  head_lexemes := rfl
  parenOpen_lexeme := rfl
  divided := .comma (by decide) rfl (.last (by decide))
  parenClose_lexeme := rfl
  braceOpen_lexeme := rfl
  balanced := rfl
  braceClose_lexeme := rfl

/-- The parameter is kept as text, and the other one as it is. -/
theorem declarations_of_functionTokens_unreadable : ∃ file,
    readModule unreadableText.toList = .ok file ∧
    (∀ p ∈ unreadableTokens.params,
      ¬ReadInPart unreadableText.toList unreadableTokens.parenClose p) ∧
    ∃ d ∈ file.declarations, d.name = "f" ∧
      d.params = [.unsupported "\x7ba: 1\x7d", .ident "x"] := by
  have hl : tokenize unreadableText.toList = .ok ⟨unreadableTokens.tokens ++ [], [], 24⟩ := by cbv
  have hfirst : Recovered unreadableText.toList unreadableTokens.parenClose unreadableParameter
      (.unsupported "\x7ba: 1\x7d") := .unreadable (by cbv) (by cbv)
  have hsecond : Recovered unreadableText.toList unreadableTokens.parenClose
      [⟨.word "x", 19, 20, false⟩] (.ident "x") := .readable (by cbv)
  have hno : ∀ p ∈ unreadableTokens.params,
      ¬ReadInPart unreadableText.toList unreadableTokens.parenClose p :=
    List.forall_mem_cons.mpr ⟨hfirst.not_readInPart,
      List.forall_mem_singleton.mpr hsecond.not_readInPart⟩
  obtain ⟨hread, hdeclared⟩ := (declarations_of_functionTokens hl .here).1 hno
  obtain ⟨file, hfile⟩ := hread.mpr ⟨[], by rw [statements]⟩
  obtain ⟨d, hd, hname, hparams, -⟩ := hdeclared file hfile
  obtain ⟨a, bs, ha, hbs, hds⟩ := List.forall₂_cons_left_iff.mp hparams
  obtain ⟨b, _, hb, hnil, rfl⟩ := List.forall₂_cons_left_iff.mp hbs
  cases hnil
  refine ⟨file, hfile, hno, d, hd, hname, ?_⟩
  rw [hds, ha.unique hfirst, hb.unique hsecond]

/-! ### A parameter that is read in part -/

/-- Two words in a row are no parameter, but the first of them is one. -/
def readInPartText : String := "function f(a b, c) \x7b\x7d"

/-- All its tokens. -/
def readInPartTokens : FunctionTokens where
  head := { name := some "f", named := nofun }
  headTokens := [⟨.word "function", 0, 8, false⟩, ⟨.word "f", 9, 10, false⟩]
  parenOpen := ⟨.mark .parenOpen, 10, 11, false⟩
  params := [[⟨.word "a", 11, 12, false⟩, ⟨.word "b", 13, 14, false⟩],
    [⟨.word "c", 16, 17, false⟩]]
  list := [⟨.word "a", 11, 12, false⟩, ⟨.word "b", 13, 14, false⟩] ++
    [⟨.mark .comma, 14, 15, false⟩, ⟨.word "c", 16, 17, false⟩]
  parenClose := ⟨.mark .parenClose, 17, 18, false⟩
  braceOpen := ⟨.mark .braceOpen, 19, 20, false⟩
  body := []
  braceClose := ⟨.mark .braceClose, 20, 21, false⟩
  head_lexemes := rfl
  parenOpen_lexeme := rfl
  divided := .comma (by decide) rfl (.last (by decide))
  parenClose_lexeme := rfl
  braceOpen_lexeme := rfl
  balanced := rfl
  braceClose_lexeme := rfl

/-- The function is not declared, although a comma divides its parameters. -/
theorem not_forall_declared : ¬∀ (source : List Char) (l : Lexed) (f : FunctionTokens)
    (rest : List Token) (file : File), tokenize source = .ok l →
      StartsStatement source l.size l.tokens (f.tokens ++ rest) → readModule source = .ok file →
        ∃ d ∈ file.declarations, d.name = f.head.declaredName ∧
          d.params.length = f.params.length := by
  intro h
  have hl : tokenize readInPartText.toList = .ok ⟨readInPartTokens.tokens ++ [], [], 21⟩ := by cbv
  have hfile : readModule readInPartText.toList = .ok ⟨[], []⟩ := by cbv
  obtain ⟨d, hd, -⟩ := h _ _ readInPartTokens [] _ hl .here hfile
  cases hd


end CallContract.Source
