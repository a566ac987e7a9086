import CallContract.Proofs.Reconciliation.SameText
import CallContract.Proofs.Source.Lookahead
import CallContract.Proofs.Source.Recovery.Function

/-!
# Templates keep their escapes

A template and a string literal have the same escapes, and both pass over them : where no quote, no
substitution and no line feed gets in the way, a text is a literal between double quotes and between
backticks alike (`Unescapes.stringBody_eq`, `Unescapes.templateBody_eq`). But a string stands
for what its escapes stand for, while a template stands for its text as it is written. So of
`x = B` the default that is recorded depends on the quotes of `B` if there is a backslash in it, and
only then (`default_of_quoted`).
-/

namespace CallContract.Source

open Json (Value)

/-! ## Texts with escapes -/

/-- Every backslash of `b` starts an escape of a string literal, and `t` is `b` with each
escape replaced by what it stands for. -/
inductive Unescapes : List Char → List Char → Prop
  | nil : Unescapes [] []
  | plain {c : Char} {s v : List Char} : c ≠ '\\' → Unescapes s v → Unescapes (c :: s) (c :: v)
  | escaped {e s cs v : List Char} : escape? (e ++ s ++ ['"']) = some (cs, e.length) →
    Unescapes s v → Unescapes ('\\' :: (e ++ s)) (cs ++ v)

/-- A text without double quotes, backticks, substitutions and line feeds. -/
structure Unquoted (b : List Char) : Prop where
  double : '"' ∉ b
  backtick : '\x60' ∉ b
  lineFeed : '\n' ∉ b
  substitution : ¬['$', '\x7b'] <:+: b

/-- An escape stands for at most one character and takes one at least. -/
theorem length_of_escape? {s cs : List Char} {n : Nat} (h : escape? s = some (cs, n)) :
    cs.length ≤ 1 ∧ 1 ≤ n := by
  have hone : ∀ {v : List Char} {k : Nat}, some (v, k + 1) = some (cs, n) → v.length ≤ 1 →
      cs.length ≤ 1 ∧ 1 ≤ n := by
    intro v k heq hv
    obtain ⟨rfl, rfl⟩ := Prod.mk.inj (Option.some.inj heq)
    exact ⟨hv, Nat.le_add_left 1 k⟩
  unfold escape? at h
  split at h
  · cases h
  split at h
  case h_8 | h_9 =>
    obtain ⟨p, -, heq⟩ := Option.map_eq_some_iff.mp h
    exact hone (congrArg some heq) (Nat.le_refl 1)
  all_goals exact hone h (by simp)

namespace Unescapes

variable {b t : List Char}

/-- Between double quotes an escaped text is read as what it stands for. -/
theorem stringBody_eq (h : Unescapes b t) (hdouble : '"' ∉ b) (hbreak : '\n' ∉ b)
    (rest : List Char) : stringBody '"' (b ++ '"' :: rest) = .ok (t, b.length + 1) := by
  induction h with
  | nil =>
    rw [List.nil_append, stringBody, if_pos rfl]
    rfl
  | plain hback _ ih =>
    simp only [List.mem_cons, not_or] at hdouble hbreak
    exact stringBody_plain (Ne.symm hdouble.1) (Ne.symm hbreak.1) hback (ih hdouble.2 hbreak.2)
  | @escaped e s cs v hescape _ ih =>
    simp only [List.mem_cons, List.mem_append, not_or] at hdouble hbreak
    have hrest := ih hdouble.2.2 hbreak.2.2
    have hread := escape?_quote (Or.inl rfl) hescape rest
    rw [List.cons_append, stringBody, if_neg (by decide), if_neg (by decide), if_pos rfl,
      if_neg (by simp), hread]
    simp only [List.append_assoc, List.drop_left, hrest, List.length_cons, List.length_append]
    congr 2
    omega

/-- What a text with escapes stands for is shorter, and a text without escapes stands for itself. -/
theorem eq_iff (h : Unescapes b t) : t = b ↔ '\\' ∉ b := by
  have hlength : t.length ≤ b.length ∧ ('\\' ∈ b → t.length < b.length) ∧ ('\\' ∉ b → t = b) := by
    induction h with
    | nil => simp
    | plain hback _ ih =>
      obtain ⟨hle, hlt, heq⟩ := ih
      simp only [List.length_cons, List.mem_cons, not_or]
      refine ⟨by omega, fun hmem => ?_, fun hmem => by rw [heq hmem.2]⟩
      have := hlt (hmem.resolve_left (Ne.symm hback))
      omega
    | escaped hescape _ ih =>
      obtain ⟨hcs, hn⟩ := length_of_escape? hescape
      simp only [List.length_cons, List.length_append]
      exact ⟨by omega, fun _ => by omega, fun hno => absurd List.mem_cons_self hno⟩
  refine ⟨?_, hlength.2.2⟩
  rintro rfl hmem
  exact absurd (hlength.2.1 hmem) (Nat.lt_irrefl _)

end Unescapes

/-- A template goes on over what no quote, backtick or substitution interrupts. -/
theorem templateBody_of_inside {q : Char} {b : List Char} (h : Inside q b) (hb : '\x60' ∉ b)
    (hopen : ¬['$', '\x7b'] <:+: b) (start pos : Nat) (rest : List Char) :
    templateBody start pos (b ++ '\x60' :: rest) = .ok (some b, b.length + 1) := by
  induction h generalizing pos with
  | nil =>
    rw [List.nil_append, templateBody]
    rfl
  | @plain c s _ hback _ ih =>
    simp only [List.mem_cons, not_or] at hb
    have hlater : ¬['$', '\x7b'] <:+: s := fun hs => hopen (hs.trans (List.suffix_cons c s).isInfix)
    have hplain : ∀ t, c = '$' → s ++ '\x60' :: rest = '\x7b' :: t → False := by
      rintro t rfl ht
      cases s with
      | nil => cases ht
      | cons d s =>
        obtain ⟨rfl, -⟩ := List.cons.inj ht
        exact hopen ⟨[], s, rfl⟩
    rw [List.cons_append, templateBody.eq_5 _ _ _ _ (Ne.symm hb.1) hback hplain, ih hb.2 hlater]
    rfl
  | @escaped e s _ ih =>
    simp only [List.mem_cons, not_or] at hb
    have hlater : ¬['$', '\x7b'] <:+: s := fun hs =>
      hopen (hs.trans ((List.suffix_cons e s).trans (List.suffix_cons '\\' _)).isInfix)
    rw [List.cons_append, List.cons_append, templateBody]
    simp only [List.drop_succ_cons, List.drop_zero, ih hb.2.2 hlater]
    rfl

/-- Between backticks a text with escapes is read as it is. -/
theorem Unescapes.templateBody_eq {b t : List Char} (h : Unescapes b t) (hb : Unquoted b)
    (start pos : Nat) (rest : List Char) :
    templateBody start pos (b ++ '\x60' :: rest) = .ok (some b, b.length + 1) := by
  have hstring := h.stringBody_eq hb.double hb.lineFeed []
  obtain ⟨raw, post, heq, hlen, hraw⟩ := inside_of_stringBody (Or.inl rfl) hstring
  obtain rfl : b = raw :=
    (List.append_inj heq (Nat.add_right_cancel hlen)).1
  exact templateBody_of_inside hraw.inside hb.backtick hb.substitution start pos rest

/-! ## Literals between quotes -/

/-- What a text between quotes stands for, where `t` is what its escapes stand for : between
backticks it is kept as it is. -/
def quotedValue (quote : Char) (b t : List Char) : Value :=
  .string (String.ofList (if quote = '\x60' then b else t))

theorem quotedValue_eq_iff {b t : List Char} (h : Unescapes b t) :
    quotedValue '"' b t = quotedValue '\x60' b t ↔ '\\' ∉ b := by
  rw [← h.eq_iff, quotedValue, quotedValue, if_neg (by decide), if_pos rfl, Value.string.injEq]
  exact ⟨fun heq => by simpa using congrArg String.toList heq, fun heq => by rw [heq]⟩

section Defaults

variable {source b t : List Char} {l : Lexed} {quote : Char} {u : Token}

/-- A token that is spelled as a text between quotes is a literal. -/
theorem literal?_of_quoted (hl : tokenize source = .ok l) (hu : u ∈ l.tokens)
    (hquote : quote = '"' ∨ quote = '\x60') (hb : Unquoted b) (ht : Unescapes b t)
    (htext : stretch? source u.start u.stop = some (quote :: (b ++ [quote]))) :
    literal? [u] = some (quotedValue quote b t) := by
  obtain ⟨pre, body, post, rfl, hstart, hstop, hspells⟩ := slice_of_mem_tokens hl hu
  rw [hstart, hstop, stretch?_width] at htext
  cases hspells with
  | @lexeme _ previous c r n hlex =>
    obtain ⟨rfl, hr⟩ := List.cons.inj (Option.some.inj htext)
    have hsplit : r = b ++ c :: r.drop n := by
      rw [← List.singleton_append, ← List.append_assoc, ← hr, List.take_append_drop]
    rw [hsplit] at hlex
    have hlexeme : u.lexeme = .string (String.ofList t) ∧ c = '"' ∨
        u.lexeme = .template (some (String.ofList b)) ∧ c = '\x60' := by
      rcases hquote with rfl | rfl
      · rw [lexemeAt, if_pos (Or.inl rfl), ht.stringBody_eq hb.double hb.lineFeed] at hlex
        exact Or.inl ⟨(Prod.mk.inj (Except.ok.inj hlex)).1.symm, rfl⟩
      · rw [lexemeAt, if_neg (by decide), if_pos rfl, ht.templateBody_eq hb] at hlex
        exact Or.inr ⟨(Prod.mk.inj (Except.ok.inj hlex)).1.symm, rfl⟩
    rcases hlexeme with ⟨hlexeme, rfl⟩ | ⟨hlexeme, rfl⟩
    · rw [literal?, hlexeme, quotedValue, if_neg (by decide)]
    · rw [literal?, hlexeme, quotedValue, if_pos rfl]

variable {f : FunctionTokens} {rest : List Token} {file : File} {d : Declaration}

/-- What is declared where a function starts has one pattern for each of its parameters. -/
theorem recovered_of_mem_declarations (hl : tokenize source = .ok l)
    (hat : StartsStatement source l.size l.tokens (f.tokens ++ rest))
    (hfile : readModule source = .ok file) (hd : d ∈ file.declarations)
    (hstart : some d.start = f.start?) :
    List.Forall₂ (Recovered source f.parenClose) f.params d.params := by
  have hs : Checked.Sliceable source (f.tokens ++ rest) :=
    sliceable_within (Checked.sliceable_of_tokenize hl) hat.suffix.isInfix
  obtain ⟨front, hfront⟩ := hat.exists_front
  rw [readModule_of_tokenize hl] at hfile
  obtain ⟨ss, hss, rfl⟩ := eq_ok_of_map_eq hfile
  obtain ⟨pre, s, post, hsplit, hfunction, hdstart, -⟩ := mem_declarations hd
  have hmem : s ∈ ss := by rw [hsplit]; simp
  -- a statement that starts where the function does is the one that is declared
  have hsame : ∀ s' ∈ ss, some s'.start = f.start? → s'.function = some (d.name, d.params) := by
    intro s' hs' hstart'
    have heq := Option.some.inj (hstart'.trans hstart.symm)
    rw [eq_of_start_eq hl hss hs' hmem (heq.trans hdstart), hfunction]
  have hbehind := hss
  rw [hfront] at hbehind
  obtain ⟨ss', hss', rfl⟩ := eq_ok_of_map_eq hbehind
  by_cases hpart : ∃ p ∈ f.params, ReadInPart source f.parenClose p
  · obtain ⟨s', hs', hnone, hstart'⟩ := statements_readInPart hs hpart hss'
    have := hsame s' (List.mem_append_right front hs') hstart'
    rw [hnone] at this
    cases this
  · push Not at hpart
    obtain ⟨s', bs, hbs, hfunction', hstart', -, hnext⟩ := statements_recovered l.size hs hpart
    rw [hnext] at hss'
    obtain ⟨ss'', -, rfl⟩ := eq_ok_of_map_eq hss'
    have := hsame s' (List.mem_append_right front List.mem_cons_self) hstart'
    rw [hfunction'] at this
    obtain ⟨-, rfl⟩ := Prod.mk.inj (Option.some.inj this)
    exact hbs

variable {x : String} {tx teq : Token} {v : Value} {i : Nat}

/-- A parameter with a literal is declared as that. -/
theorem Recovered.eq_withDefault {close : Token} {p : Pattern}
    (h : Recovered source close [tx, teq, u] p) (hclose : close.lexeme = .mark .parenClose)
    (hx : tx.lexeme = .word x) (heq : teq.lexeme = .mark .assign) (hv : literal? [u] = some v) :
    p = .withDefault (.ident x) (.literal v) := by
  have hstops : Stops ([close].map Token.lexeme) := ⟨_, [], by rw [← hclose]; rfl, Or.inr rfl⟩
  have hread : readPattern source (tx :: teq :: ([u] ++ [close])) =
      .ok (.withDefault (.ident x) (.literal v), 3) := readPattern_of_literal? hx heq hv hstops
  cases h with
  | readable hp => exact (Prod.mk.inj (Except.ok.inj (hp.symm.trans hread))).1
  | unreadable hnone => cases hnone.symm.trans hread

/-- A text without quotes, backticks, substitutions and line feeds in which every backslash starts
an escape is a literal between double quotes and between backticks. The default of a parameter
`x = B` with such a literal `B` is a string : between double quotes what the text stands for, but
between backticks the text itself, so the two are different exactly if there is a backslash. This
default is read wherever a pattern is, is declared with every function that has the parameter, and
is in the contract of the function, if nothing else binds the name or falls back on it and no
comment documents the function. -/
theorem default_of_quoted (hl : tokenize source = .ok l) (hb : Unquoted b) (ht : Unescapes b t)
    (hquote : quote = '"' ∨ quote = '\x60') (hx : tx.lexeme = .word x)
    (heq : teq.lexeme = .mark .assign) (hu : u ∈ l.tokens)
    (htext : stretch? source u.start u.stop = some (quote :: (b ++ [quote]))) :
    (quotedValue '"' b t = quotedValue '\x60' b t ↔ '\\' ∉ b) ∧
    (∀ rest, Stops (rest.map Token.lexeme) → readPattern source (tx :: teq :: u :: rest) =
      .ok (.withDefault (.ident x) (.literal (quotedValue quote b t)), 3)) ∧
    ∀ (f : FunctionTokens) (rest : List Token) (file : File) (d : Declaration) (i : Nat),
      readModule source = .ok file →
      StartsStatement source l.size l.tokens (f.tokens ++ rest) → d ∈ file.declarations →
      some d.start = f.start? → f.params[i]? = some [tx, teq, u] →
        d.params[i]? = some (.withDefault (.ident x) (.literal (quotedValue quote b t))) ∧
        ((∀ j y, Pattern.BindsNameAt d.params j y → (y.name = x → j = i) ∧ y.fallback ≠ some x) →
          ∀ r, ∃ p, (x, p) ∈ (Contract.ofDeclaration r none d).1.vars ∧ p.path = .root i ∧
            p.default = some (quotedValue quote b t)) := by
  have hv := literal?_of_quoted hl hu hquote hb ht htext
  refine ⟨quotedValue_eq_iff ht, fun rest hrest => readPattern_of_literal? hx heq hv hrest,
    fun f rest file d i hfile hat hd hstart hi => ?_⟩
  obtain ⟨hlen, hall⟩ :=
    List.forall₂_iff_get.mp (recovered_of_mem_declarations hl hat hfile hd hstart)
  obtain ⟨hlt, hp⟩ := List.getElem?_eq_some_iff.mp hi
  have hrecovered : Recovered source f.parenClose [tx, teq, u] (d.params.get ⟨i, hlen ▸ hlt⟩) :=
    hp ▸ hall i hlt (hlen ▸ hlt)
  have hparam : d.params[i]? =
      some (.withDefault (.ident x) (.literal (quotedValue quote b t))) := by
    rw [List.getElem?_eq_getElem (hlen ▸ hlt)]
    exact congrArg some (hrecovered.eq_withDefault f.parenClose_lexeme hx heq hv)
  refine ⟨hparam, fun hbound r => ?_⟩
  have hdefaulted : Defaulted d.params i x (quotedValue quote b t) :=
    ⟨hparam, fun j y hy => (hbound j y hy).1⟩
  have hkey := hdefaulted.mem_keys fun j y hy => (hbound j y hy).2
  obtain ⟨⟨_, p⟩, hmem, rfl⟩ := List.mem_map.mp hkey
  exact ⟨p, hmem, hdefaulted.of_mem_ofPatterns p hmem⟩

end Defaults

/-! ### A tab between backticks -/

/-- A tab between two letters, and its spelling. -/
theorem unescapes_tab : Unescapes "a\\tb".toList "a\tb".toList :=
  have htab : escape? (['t'] ++ ['b'] ++ ['"']) = some (['\t'], ['t'].length) := rfl
  .plain (by decide) (.escaped htab (.plain (by decide) .nil))

theorem unquoted_tab : Unquoted "a\\tb".toList where
  double := by decide
  backtick := by decide
  lineFeed := by decide
  substitution := by decide

/-- A function with a parameter whose default is a text between backticks. -/
def templateText : String := "function tab(x = \x60a\\tb\x60) \x7b x \x7d"

/-- The tokens of its parameter. -/
def templateParameter : List Token :=
  [⟨.word "x", 13, 14, false⟩, ⟨.mark .assign, 15, 16, false⟩,
    ⟨.template (some "a\\tb"), 17, 23, false⟩]

/-- All its tokens. -/
def templateTokens : FunctionTokens where
  head := { name := some "tab", named := nofun }
  headTokens := [⟨.word "function", 0, 8, false⟩, ⟨.word "tab", 9, 12, false⟩]
  parenOpen := ⟨.mark .parenOpen, 12, 13, false⟩
  params := [templateParameter]
  list := templateParameter
  parenClose := ⟨.mark .parenClose, 23, 24, false⟩
  braceOpen := ⟨.mark .braceOpen, 25, 26, false⟩
  body := [⟨.word "x", 27, 28, false⟩]
  braceClose := ⟨.mark .braceClose, 29, 30, false⟩
  head_lexemes := rfl
  parenOpen_lexeme := rfl
  divided := .last (by decide)
  parenClose_lexeme := rfl
  braceOpen_lexeme := rfl
  balanced := rfl
  braceClose_lexeme := rfl

/-- One parameter with a literal binds nothing else, and nothing falls back on it. -/
theorem eq_zero_of_bindsNameAt_literal {x : String} {v : Value} {j : Nat} {y : BoundName}
    (h : Pattern.BindsNameAt [.withDefault (.ident x) (.literal v)] j y) :
    (y.name = x → j = 0) ∧ y.fallback ≠ some x := by
  obtain ⟨p, hp, hy⟩ := h
  cases j with
  | succ j => cases hp
  | zero =>
    obtain rfl := Option.some.inj hp
    cases hy with
    | nameDefault => exact ⟨fun _ => rfl, (Option.some_ne_none x).symm⟩
    | withDefault hne _ => exact absurd rfl (hne x)

/-- The backslash is in the default. -/
theorem default_of_quoted_tab : ∃ file d, readModule templateText.toList = .ok file ∧
    Unquoted "a\\tb".toList ∧ Unescapes "a\\tb".toList "a\tb".toList ∧ d ∈ file.declarations ∧
    d.params[0]? = some (.withDefault (.ident "x") (.literal (.string "a\\tb"))) ∧
    ∃ p, ("x", p) ∈ (Contract.ofDeclaration .empty none d).1.vars ∧ p.path = .root 0 ∧
      p.default = some (.string "a\\tb") := by
  have hl : tokenize templateText.toList = .ok ⟨templateTokens.tokens ++ [], [], 30⟩ := by cbv
  have hfile : readModule templateText.toList = .ok
      ⟨[⟨"tab", [.withDefault (.ident "x") (.literal (.string "a\\tb"))], 0, 30, none⟩], []⟩ := by
    cbv
  have htext : stretch? templateText.toList 17 23 =
      some ('\x60' :: ("a\\tb".toList ++ ['\x60'])) := by decide +kernel
  have hvalue : quotedValue '\x60' "a\\tb".toList "a\tb".toList = .string "a\\tb" := by
    rw [quotedValue, if_pos rfl, String.ofList_toList]
  have hname : (⟨.word "x", 13, 14, false⟩ : Token).lexeme = .word "x" := rfl
  have hassign : (⟨.mark .assign, 15, 16, false⟩ : Token).lexeme = .mark .assign := rfl
  have hmem : ⟨.template (some "a\\tb"), 17, 23, false⟩ ∈ templateTokens.tokens ++ [] := by
    simp [templateTokens, FunctionTokens.tokens, templateParameter]
  obtain ⟨-, -, hdeclared⟩ := default_of_quoted hl unquoted_tab unescapes_tab (Or.inr rfl) hname
    hassign hmem htext
  rw [hvalue] at hdeclared
  obtain ⟨hparam, hvariable⟩ :=
    hdeclared templateTokens [] _ _ 0 hfile .here List.mem_cons_self rfl rfl
  exact ⟨_, _, hfile, unquoted_tab, unescapes_tab, List.mem_cons_self, hparam,
    hvariable (fun _ _ => eq_zero_of_bindsNameAt_literal) .empty⟩

/-- A function with a parameter whose default is a text between quotes. -/
def textWithDefault (quote b : String) : String :=
  "function f(x = " ++ quote ++ b ++ quote ++ ") \x7b\x7d"

/-- The defaults of the variables of all functions. -/
def defaultsOf (e : Extraction) : List (List (Option Value)) :=
  e.contracts.map fun c => c.vars.values.map Parameter.default

/-- Between double quotes the tab is in the default, and between backticks the backslash. -/
theorem not_forall_defaults_eq : ¬∀ b t : String, Unquoted b.toList → '\x27' ∉ b.toList →
    '\r' ∉ b.toList → Unescapes b.toList t.toList →
      (extract false .empty (textWithDefault "\"" b)).map defaultsOf =
        (extract false .empty (textWithDefault "\x60" b)).map defaultsOf := by
  intro h
  have hdouble : textWithDefault "\"" "a\\tb" = "function f(x = \"a\\tb\") \x7b\x7d" := by
    decide +kernel
  have hbacktick : textWithDefault "\x60" "a\\tb" = "function f(x = \x60a\\tb\x60) \x7b\x7d" := by
    decide +kernel
  have hstring : (extract false .empty (textWithDefault "\"" "a\\tb")).map defaultsOf =
      .ok [[some (.string "a\tb")]] := by
    rw [hdouble]
    cbv
  have htemplate : (extract false .empty (textWithDefault "\x60" "a\\tb")).map defaultsOf =
      .ok [[some (.string "a\\tb")]] := by
    rw [hbacktick]
    cbv
  have hsame := h "a\\tb" "a\tb" unquoted_tab (by decide) (by decide) unescapes_tab
  rw [hstring, htemplate] at hsame
  simp at hsame

end CallContract.Source
