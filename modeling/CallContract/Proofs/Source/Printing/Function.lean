import CallContract.Proofs.Source.Printing.Parameters

/-!
# Written functions are read back

Supported parameters are written in the head of a function with an empty body, a declaration
(`Style.functionText`) or an arrow function that is bound to a name (`Style.arrowText`). In every
style, reading the text gives one declaration, and it has the name and the parameters that were
written (`readModule_written`) : the lexer gives back the lexemes, the readers of patterns give
back the parameters, and the body takes the tokens that are left.
-/

namespace CallContract.Source

variable {y : Style} {source : List Char} {ts : List Token} {ls : List Lexeme}

/-! ## Functions -/

namespace Style

variable (y)

/-- The lexemes of a function declaration with an empty body. -/
def functionLexemes (name : String) (ps : List Pattern) : List Lexeme :=
  .word "function" :: .word name :: .mark .parenOpen ::
    (y.parametersLexemes ps ++ [.mark .braceOpen, .mark .braceClose])

/-- The lexemes of a constant that is bound to an arrow function with an empty body. -/
def arrowLexemes (name : String) (ps : List Pattern) : List Lexeme :=
  .word "const" :: .word name :: .mark .assign :: .mark .parenOpen ::
    (y.parametersLexemes ps ++ [.mark .arrow, .mark .braceOpen, .mark .braceClose])

/-- A function declaration as text. -/
def functionText (name : String) (ps : List Pattern) : List Char :=
  y.text (y.functionLexemes name ps)

/-- A constant that is bound to an arrow function as text. -/
def arrowText (name : String) (ps : List Pattern) : List Char := y.text (y.arrowLexemes name ps)

end Style

theorem readParameterList_lexemes {ps : List Pattern} (hps : ∀ p ∈ ps, p.Supported)
    (hts : List.Forall₂ (Stands source) ts (.mark .parenOpen :: (y.parametersLexemes ps ++ ls))) :
    readParameterList source ts = .ok (ps, (y.parametersLexemes ps).length + 1) := by
  obtain ⟨t, r, ht, hr, rfl⟩ := List.forall₂_cons_right_iff.mp hts
  rw [readParameterList, if_pos ht.lexeme, readParameters_lexemes hps hr]
  rfl

theorem blockTokens_empty
    (hts : List.Forall₂ (Stands source) ts [.mark .braceOpen, .mark .braceClose]) :
    blockTokens ts = .ok 2 := by
  obtain ⟨t, _, ht, hr, rfl⟩ := List.forall₂_cons_right_iff.mp hts
  obtain ⟨u, _, hu, hnil, rfl⟩ := List.forall₂_cons_right_iff.mp hr
  cases hnil
  rw [blockTokens, if_pos ht.lexeme, blockRest?, hu.lexeme]
  rfl

/-- The body of an arrow function ends its statement at the end of the text. -/
theorem arrowTokens_empty (size : Nat) (hts : List.Forall₂ (Stands source) ts
    [.mark .arrow, .mark .braceOpen, .mark .braceClose]) : arrowTokens size ts = .ok 3 := by
  obtain ⟨t, r, ht, hr, rfl⟩ := List.forall₂_cons_right_iff.mp hts
  have hblock := blockTokens_empty hr
  obtain ⟨u, _, hu, hlast, rfl⟩ := List.forall₂_cons_right_iff.mp hr
  obtain ⟨v, _, hv, hnil, rfl⟩ := List.forall₂_cons_right_iff.mp hlast
  cases hnil
  have hbody : bodyTokens size [u, v] = .ok 2 := by
    rw [bodyTokens, hblock]
    rfl
  have harrow : startsWithMark .arrow [t, u, v] = true := by
    rw [startsWithMark, ht.lexeme]
    rfl
  have hbrace : startsWithMark .braceOpen [u, v] = true := by
    rw [startsWithMark, hu.lexeme]
    rfl
  rw [arrowTokens, if_pos harrow, arrowBodyTokens, List.drop_succ_cons, List.drop_zero,
    if_pos hbrace, hbody]
  rfl

theorem startsWithWord_of_stands {t : Token} {r : List Token} {l : Lexeme} (ht : Stands source t l)
    (w : String) : startsWithWord w (t :: r) = (l == .word w) := by
  rw [startsWithWord, ht.lexeme]

theorem firstWord?_of_stands {t : Token} {r : List Token} {name : String}
    (ht : Stands source t (.word name)) : firstWord? (t :: r) = some name := by
  rw [firstWord?, ht.lexeme]

/-- A function declaration is read back. -/
theorem readFunction_functionLexemes {name : String} {ps : List Pattern} (size : Nat)
    (hps : ∀ p ∈ ps, p.Supported)
    (hts : List.Forall₂ (Stands source) ts (y.functionLexemes name ps)) :
    readFunction source size ts = .ok ((name, ps), ts.length) := by
  have hlength := hts.length_eq
  obtain ⟨f, _, hf, hrest, rfl⟩ := List.forall₂_cons_right_iff.mp hts
  obtain ⟨n, r, hn, hlist, rfl⟩ := List.forall₂_cons_right_iff.mp hrest
  have hread := readParameterList_lexemes hps hlist
  -- the body is what the parameter list leaves
  have hblock := blockTokens_empty
    (List.forall₂_drop_append r (.mark .parenOpen :: y.parametersLexemes ps) _ hlist)
  have hdeclared : readDeclared source r = .ok (ps, (y.parametersLexemes ps).length + 1 + 2) := by
    rw [readDeclared, hread]
    simp only [bind, Except.bind]
    rw [List.length_cons] at hblock
    rw [hblock]
  have hexport : startsWithWord "export" (f :: n :: r) = false := by
    rw [startsWithWord_of_stands hf]
    decide
  have hasync : startsWithWord "async" (f :: n :: r) = false := by
    rw [startsWithWord_of_stands hf]
    decide
  have hfunction : startsWithWord "function" (f :: n :: r) = true := by
    rw [startsWithWord_of_stands hf]
    decide
  have hstar : startsWithMark .star (n :: r) = false := by
    rw [startsWithMark, hn.lexeme]
    simp
  have hname : firstWord? (n :: r) = some name := firstWord?_of_stands hn
  rw [readFunction, hexport]
  simp only [Bool.false_and, oneIf, Bool.false_eq_true, if_false, Nat.add_zero, List.drop_zero,
    hasync, hfunction, if_true, List.drop_succ_cons, hstar, hname, hdeclared, bind, Except.bind]
  rw [hlength]
  simp only [Style.functionLexemes, List.length_cons, List.length_append, List.length_nil]
  congr 2
  omega

/-- An arrow function that is bound to a name is read back. -/
theorem readFunction_arrowLexemes {name : String} {ps : List Pattern} (size : Nat)
    (hps : ∀ p ∈ ps, p.Supported)
    (hts : List.Forall₂ (Stands source) ts (y.arrowLexemes name ps)) :
    readFunction source size ts = .ok ((name, ps), ts.length) := by
  have hlength := hts.length_eq
  obtain ⟨f, _, hf, hrest, rfl⟩ := List.forall₂_cons_right_iff.mp hts
  obtain ⟨n, _, hn, hassign, rfl⟩ := List.forall₂_cons_right_iff.mp hrest
  obtain ⟨a, r, ha, hlist, rfl⟩ := List.forall₂_cons_right_iff.mp hassign
  have hread := readParameterList_lexemes hps hlist
  have harrow := arrowTokens_empty size
    (List.forall₂_drop_append r (.mark .parenOpen :: y.parametersLexemes ps) _ hlist)
  obtain ⟨o, r, ho, -, rfl⟩ := List.forall₂_cons_right_iff.mp hlist
  have hword : ∀ w, startsWithWord w (o :: r) = false := fun w => by
    rw [startsWithWord_of_stands ho]
    simp
  have hfirst : firstWord? (o :: r) = none := by rw [firstWord?, ho.lexeme]
  have hvalue : readFunctionValue source size (o :: r) =
      .ok (ps, (y.parametersLexemes ps).length + 1 + 3) := by
    rw [List.length_cons] at harrow
    rw [readFunctionValue, asyncTokens, hword]
    simp only [Bool.false_eq_true, false_and, if_false, List.drop_zero, hword, hfirst, hread, bind,
      Except.bind, harrow, Nat.zero_add]
  have hconst : ∀ w, "const" ≠ w → startsWithWord w (f :: n :: a :: o :: r) = false := by
    intro w hw
    rw [startsWithWord_of_stands hf]
    simpa using hw
  have hassign : startsWithMark .assign (a :: o :: r) = true := by
    rw [startsWithMark, ha.lexeme]
    rfl
  have hbinder : firstWord? (f :: n :: a :: o :: r) = some "const" := firstWord?_of_stands hf
  have hname : firstWord? (n :: a :: o :: r) = some name := firstWord?_of_stands hn
  rw [readFunction, hconst "export" (by decide)]
  simp only [Bool.false_and, oneIf, Bool.false_eq_true, if_false, Nat.add_zero, List.drop_zero,
    hconst "async" (by decide), hconst "function" (by decide), List.drop_succ_cons, hbinder, hname,
    hassign, and_true, true_and]
  rw [if_pos (by decide), hvalue, hlength]
  simp only [bind, Except.bind, Style.arrowLexemes, List.length_cons, List.length_append,
    List.length_nil]
  congr 2
  omega

/-- A text whose tokens are one function is read as one declaration. -/
theorem exists_readModule {ls : List Lexeme} {name : String} {ps : List Pattern}
    (hls : ∀ l ∈ ls, l.Writable) (hhead : ∃ w, ls.head? = some (.word w))
    (hread : ∀ size ts, List.Forall₂ (Stands (y.text ls)) ts ls →
      readFunction (y.text ls) size ts = .ok ((name, ps), ts.length)) :
    ∃ d, readModule (y.text ls) = .ok ⟨[d], []⟩ ∧ d.name = name ∧ d.params = ps := by
  obtain ⟨ts, htokenize, hts⟩ := y.exists_tokenize hls
  obtain ⟨w, hw⟩ := hhead
  obtain ⟨ms, rfl⟩ := List.head?_eq_some_iff.mp hw
  obtain ⟨t, r, ht, -, rfl⟩ := List.forall₂_cons_right_iff.mp hts
  have hstatement : readStatement (y.text (.word w :: ms)) (width (y.text (.word w :: ms)))
      (t :: r) = .ok (some (name, ps), r.length) := by
    rw [readStatement, hread _ _ hts]
    rfl
  rw [readModule, htokenize]
  simp only
  rw [readStatements, if_neg (by rw [ht.lexeme]; simp), hstatement]
  simp only [List.drop_length, readStatements]
  exact ⟨_, rfl, rfl, rfl⟩

/-- Supported parameters are read back from a function declaration and from an arrow function,
written in any style: a text has one declaration, of that name and with those parameters. -/
theorem readModule_written (y : Style) {name : String} {ps : List Pattern} (hname : IsWord name)
    (hps : ∀ p ∈ ps, p.Supported) :
    (∃ d, readModule (y.functionText name ps) = .ok ⟨[d], []⟩ ∧ d.name = name ∧ d.params = ps) ∧
      ∃ d, readModule (y.arrowText name ps) = .ok ⟨[d], []⟩ ∧ d.name = name ∧ d.params = ps := by
  have hparams := writable_parametersLexemes (y := y) hps
  have hfunction : IsWord "function" := isWord_of_chars rfl rfl rfl
  have hconst : IsWord "const" := isWord_of_chars rfl rfl rfl
  constructor
  · refine exists_readModule ?_ ⟨_, rfl⟩ fun size _ => readFunction_functionLexemes size hps
    simp only [Style.functionLexemes, List.forall_mem_cons, List.forall_mem_append]
    exact ⟨.word hfunction, .word hname, .mark _, hparams, .mark _, .mark _, by simp⟩
  · refine exists_readModule ?_ ⟨_, rfl⟩ fun size _ => readFunction_arrowLexemes size hps
    simp only [Style.arrowLexemes, List.forall_mem_cons, List.forall_mem_append]
    exact ⟨.word hconst, .word hname, .mark _, .mark _, hparams, .mark _, .mark _, .mark _, by simp⟩

/-! ## An example -/

/-- Parameters with every kind of pattern, key and default value. -/
def nestedParams : List Pattern :=
  [.object
      [.property (.ident "a") (.withDefault (.ident "a") (.literal (.string "x\"\n"))),
        .property (.quoted "b.c" (Json.Value.string "b.c").compact)
          (.array [none, some (.ident "d"), none]),
        .property (.number "1.5e+3") (.withDefault (.object []) (.coalesce "e" .null)),
        .rest (.ident "r")],
    .withDefault (.array [some (.rest (.object []))]) (.name "g"), .rest (.ident "h")]

/-- The parameters as text, with the closing parenthesis. -/
def nestedText : String :=
  "(\x7ba=\"x\\\"\\n\",\"b.c\":[,d,,],1.5e+3:\x7b\x7d=e??null,...r\x7d,[...\x7b\x7d]=g,...h)"

theorem isWord_letters : ∀ name ∈ ["a", "d", "e", "f", "g", "h", "r"], IsWord name := by
  intro name hname
  simp only [List.mem_cons, List.not_mem_nil, or_false] at hname
  rcases hname with rfl | rfl | rfl | rfl | rfl | rfl | rfl <;> exact isWord_of_chars rfl rfl rfl

theorem isDecimal_exponent : IsDecimal "1.5e+3".toList := by
  have hdigit : ∀ {c : Char}, c.isDigit = true → IsDigitRun [c] := fun hc =>
    ⟨⟨_, rfl, hc⟩, List.forall_mem_singleton.mpr (Or.inl hc)⟩
  have hsign : ∀ c ∈ some '+', c = '+' ∨ c = '-' := by simp
  have hexponent : IsExponent ['e', '+', '3'] := .some (Or.inl rfl) hsign (hdigit rfl)
  have hnumber : IsDecimal (['1'] ++ '.' :: (['5'] ++ ['e', '+', '3'])) :=
    .point (hdigit rfl) (Or.inr (hdigit rfl)) hexponent
  exact hnumber

theorem supported_nestedParams : ∀ p ∈ nestedParams, p.Supported := by
  have hword : ∀ name ∈ ["a", "d", "e", "f", "g", "h", "r"], IsWord name := isWord_letters
  have ha : (Pattern.ident "a").IsTarget := .ident (hword _ (by decide))
  have hd : (Pattern.ident "d").Supported := .target (.ident (hword _ (by decide)))
  have hempty : (Pattern.object []).IsTarget := .object .nil
  simp only [nestedParams, List.forall_mem_cons]
  refine ⟨.target (.object ?_), .withDefault (.array ?_) ?_, .rest (.ident (hword _ (by decide))),
    by simp⟩
  · refine .property (.ident (hword _ (by decide))) (.withDefault ha (.literal (.string _))) ?_
    refine .property (.quoted _) (.target (.array (.hole (.element hd (.hole .nil))))) ?_
    refine .property (.number isDecimal_exponent) (.withDefault hempty ?_) ?_
    · exact .coalesce (hword _ (by decide)) .null
    · exact .rest (.ident (hword _ (by decide))) .nil
  · exact .element (.rest hempty) .nil
  · exact .name (hword _ (by decide)) (by decide)

theorem readModule_written_nested : IsWord "f" ∧ (∀ p ∈ nestedParams, p.Supported) ∧
    (∃ d, readModule ("function f" ++ nestedText ++ "\x7b\x7d").toList = .ok ⟨[d], []⟩ ∧
      d.name = "f" ∧ d.params = nestedParams) ∧
    ∃ d, readModule ("const f=" ++ nestedText ++ "=>\x7b\x7d").toList = .ok ⟨[d], []⟩ ∧
      d.name = "f" ∧ d.params = nestedParams := by
  have hname : IsWord "f" := isWord_letters "f" (by decide)
  have hfunction : ("function f" ++ nestedText ++ "\x7b\x7d").toList =
      (Style.compact true false).functionText "f" nestedParams := by decide +kernel
  have harrow : ("const f=" ++ nestedText ++ "=>\x7b\x7d").toList =
      (Style.compact true false).arrowText "f" nestedParams := by decide +kernel
  rw [hfunction, harrow]
  exact ⟨hname, supported_nestedParams,
    readModule_written (Style.compact true false) hname supported_nestedParams⟩

end CallContract.Source
