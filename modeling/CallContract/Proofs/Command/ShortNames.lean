import CallContract.Proofs.Association.Hoisting
import CallContract.Proofs.Command.Flags
import CallContract.Proofs.Path.OtherName
import CallContract.Proofs.Reconciliation.Apart
import CallContract.Proofs.Reconciliation.PropertyByProperty

/-!
# Short names of options

What a comment documents has no other name (`carries_noOtherName`), so a row of a contract has that
of its variable, or none if it takes the place of one (`Contract.otherName_cases`). The short name
of an option is therefore the single character that its variable falls back on or takes over. Names
that are fallen back on are not kept apart : two options have one short name if both fall back on
it, or one does and the other takes it over (`Contract.ShortNames`), as options of a text can
(`Source.not_forall_shortNames_apart`). On the command line the first of them is meant.
-/

namespace CallContract

/-! ## Rows -/

/-- Documented parameters have no other name. -/
theorem carries_noOtherName : Carries (fun _ => True) (fun _ => True) (fun _ => True)
    (fun p => p.otherName = none) (fun _ => True) where
  tag _ _ := trivial
  extend _ _ _ := trivial
  parameter path t _ := by
    rw [Doc.parameter]
    cases TypeExpr.shape? t.type <;> rfl
  property _ _ := trivial
  wrapped _ _ _ _ := trivial
  ofProp name path p _ := by
    rw [Parameter.ofProp]
    cases p.type.bind TypeExpr.shape? <;> rfl
  renamed _ _ h := h
  stable := ⟨fun _ _ _ => trivial, fun _ _ _ _ => trivial⟩
  leaf _ _ := trivial
  merge _ _ _ _ := trivial
  documented _ _ := trivial

mutual

theorem PropDef.propsAll_true : ∀ p : PropDef, PropsAll (fun _ => True) p.props
  | { props, .. } => propsAll_true props

theorem propsAll_true : ∀ ps : List (String × PropDef), PropsAll (fun _ => True) ps
  | [] => .nil
  | (_, p) :: ps => .cons trivial p.propsAll_true (propsAll_true ps)

end

namespace Contract

/-- The documented parameters of a comment, and those that they stand for, have no other name. -/
theorem otherName_of_documented {c : Source.Comment} {doc : Doc} (h : Doc.ofComment? c = some doc)
    (r : Registry) : ∀ e ∈ Documented.expanded r doc.params, e.2.otherName = none := by
  have hdoc := carries_noOtherName.docsOf [c] doc
    (List.mem_filterMap.mpr ⟨c, List.mem_singleton_self c, h⟩)
  exact Documented.forall_expanded carries_noOtherName (fun d _ => propsAll_true d.props)
    hdoc.params

/-- The row of a contract has the other name of its variable, or none if it is that of a documented
parameter below a variable. -/
theorem otherName_cases {r : Registry} {doc : Option Doc}
    (hdoc : ∀ d ∈ doc, ∃ c, Doc.ofComment? c = some d) {decl : Declaration}
    {e : String × Parameter} (he : e ∈ (Contract.ofDeclaration r doc decl).1.vars) :
    (∃ p, (e.1, p) ∈ Variables.ofPatterns decl.params ∧ e.2.otherName = p.otherName) ∨
      e.2.otherName = none ∧
        ∃ f ∈ Variables.ofPatterns decl.params, f.2.path.isAbove e.2.path = true := by
  cases doc with
  | none => exact Or.inl ⟨e.2, he, rfl⟩
  | some d =>
    obtain ⟨c, hc⟩ := hdoc d rfl
    obtain ⟨f, hf, hrow⟩ := Variables.exists_of_mem_vars he
    have hp : Documented.Keyed (Documented.expanded r d.params) := (Doc.keyed_params hc).expanded
    rcases Variables.resolve_cases (r := r) hp f.2 with ⟨-, heq⟩ | ⟨q, -, -, ⟨-, heq⟩ | ⟨-, heq⟩⟩
    · rw [heq] at hrow
      obtain ⟨hname, hrow⟩ := hrow.resolve_right List.not_mem_nil
      exact Or.inl ⟨f.2, hname ▸ hf, by rw [← Option.some.inj hrow]⟩
    · rw [heq] at hrow
      obtain ⟨hname, hrow⟩ := hrow.resolve_right List.not_mem_nil
      exact Or.inl ⟨f.2, hname ▸ hf, by rw [← Option.some.inj hrow]; rfl⟩
    · rw [heq] at hrow
      have hinner := hrow.resolve_left fun h => nomatch h.2
      refine Or.inr ⟨?_, f, hf, Documented.path_of_mem_innermost hinner⟩
      exact Documented.forall_innermost carries_noOtherName (otherName_of_documented hc r) _ _
        hinner

end Contract

/-! ## Options -/

/-- A short name stands for the first option that has it. -/
theorem OptionSchema.named?_of_first {schema : OptionSchema} {s : String}
    {front behind : List (String × OptionSpec)} {e : String × OptionSpec}
    (hoptions : schema.options = front ++ e :: behind) (he : e.2.short = some s)
    (hfirst : ∀ f ∈ front, f.2.short ≠ some s) : schema.named? s = some e.1 := by
  have hnone : List.find? (fun e => e.2.short == some s) front = none := by
    rw [List.find?_eq_none]
    exact fun f hf h => hfirst f hf (eq_of_beq h)
  rw [OptionSchema.named?, hoptions, List.find?_append, hnone, Option.none_or]
  simp [he]

namespace Contract

/-- The short names of a contract's options : where they come from, when two options have the same
one, and which option is meant by it on the command line. -/
structure ShortNames (decl : Declaration) (c : Contract) : Prop where
  /-- An option has the other name of its variable if that is a single character. It has none if
  its row is that of a documented parameter below a variable. -/
  from_variable : ∀ e ∈ (OptionSchema.ofContract c).options,
    (∀ s, e.2.short = some s ↔
      s.length = 1 ∧ Variables.HasOtherName (Variables.bound decl.params) e.1 s) ∨
    e.2.short = none ∧ ∃ p, (e.1, p) ∈ c.vars ∧
      ∃ f ∈ Variables.ofPatterns decl.params, f.2.path.isAbove p.path = true
  /-- Of two options with one short name at least one falls back on it. -/
  shared : ∀ e ∈ (OptionSchema.ofContract c).options,
    ∀ f ∈ (OptionSchema.ofContract c).options, e.1 ≠ f.1 →
      ∀ s, e.2.short = some s → f.2.short = some s →
        Variables.HasOtherName (Variables.bound decl.params) e.1 s ∧
        Variables.HasOtherName (Variables.bound decl.params) f.1 s ∧
        (Variables.FallsBack (Variables.bound decl.params) e.1 s ∨
          Variables.FallsBack (Variables.bound decl.params) f.1 s)
  /-- The first option with a short name is meant by it. -/
  designated : ∀ front e behind ch, (OptionSchema.ofContract c).options = front ++ e :: behind →
    ch ≠ '-' → e.2.short = some (String.singleton ch) →
      (∀ f ∈ front, f.2.short ≠ some (String.singleton ch)) →
        Command.Flag.ofWord (OptionSchema.ofContract c) ("-" ++ String.singleton ch) =
          .ok ⟨e.1, none⟩

variable {r : Registry} {doc : Option Doc} {decl : Declaration}

theorem short_cases (hdoc : ∀ d ∈ doc, ∃ c, Doc.ofComment? c = some d)
    {e : String × OptionSpec}
    (he : e ∈ (OptionSchema.ofContract (Contract.ofDeclaration r doc decl).1).options) :
    (∀ s, e.2.short = some s ↔
      s.length = 1 ∧ Variables.HasOtherName (Variables.bound decl.params) e.1 s) ∨
    e.2.short = none ∧ ∃ p, (e.1, p) ∈ (Contract.ofDeclaration r doc decl).1.vars ∧
      ∃ f ∈ Variables.ofPatterns decl.params, f.2.path.isAbove p.path = true := by
  obtain ⟨row, hrow, hspec⟩ := List.mem_filterMap.mp he
  obtain ⟨t, -, rfl⟩ := Option.map_eq_some_iff.mp hspec
  have hshort : (OptionSpec.ofParameter row.2 t).short =
      row.2.otherName.filter fun a => decide (a.length = 1) := rfl
  rcases otherName_cases hdoc hrow with ⟨p, hp, hsame⟩ | ⟨hnone, f, hf, habove⟩
  · refine Or.inl fun s => ?_
    rw [hshort, Option.filter_eq_some_iff, hsame, Variables.otherName_ofPatterns hp, and_comm,
      decide_eq_true_iff]
  · exact Or.inr ⟨by rw [hshort, hnone]; rfl, row.2, hrow, f, hf, habove⟩

theorem shortNames_ofDeclaration (hdoc : ∀ d ∈ doc, ∃ c, Doc.ofComment? c = some d) :
    ShortNames decl (Contract.ofDeclaration r doc decl).1 where
  from_variable _ he := short_cases hdoc he
  shared e he f hf hne s hes hfs := by
    have hother : ∀ g ∈ (OptionSchema.ofContract (Contract.ofDeclaration r doc decl).1).options,
        g.2.short = some s → Variables.HasOtherName (Variables.bound decl.params) g.1 s := by
      intro g hg hgs
      rcases short_cases hdoc hg with h | ⟨hnone, -⟩
      · exact ((h s).mp hgs).2
      · cases hnone.symm.trans hgs
    refine ⟨hother e he hes, hother f hf hfs, ?_⟩
    rcases hother e he hes with hback | htakes
    · exact Or.inl hback
    · exact Or.inr ((hother f hf hfs).resolve_right fun h => hne (htakes.unique h))
  designated _ _ _ _ hoptions hdash hshort hfirst :=
    Command.ofWord_short hdash (OptionSchema.named?_of_first hoptions hshort hfirst)

end Contract

namespace Source

/-- The short names of the options of every contract of a text. -/
theorem shortNames_of_extract {source : String} {file : File}
    (h : readModule source.toList = .ok file) (hoist : Bool) (r : Registry) :
    ∃ x, extract hoist r source = .ok x ∧
      List.Forall₂ Contract.ShortNames file.declarations x.contracts := by
  refine ⟨_, by rw [extract, h]; rfl, ?_⟩
  rw [contracts_of_readModule h, List.forall₂_map_right_iff, List.forall₂_same]
  intro decl _
  refine Contract.shortNames_ofDeclaration fun d hd => ?_
  have hlast := (Option.mem_filter_iff.mp hd).1
  have hdocs := (List.takeWhile_prefix _).subset (List.mem_of_getLast? hlast)
  obtain ⟨c, -, hc⟩ := List.mem_filterMap.mp hdocs
  exact ⟨c, hc⟩

/-- A function that binds one property under its name and another one, and falls back on it too. -/
def sharedLetterText : String :=
  "/** @param \x7bObject\x7d o\n@param \x7bstring\x7d o.p\n@param \x7bstring\x7d q */\n" ++
    "function f(\x7bp, p: path\x7d, q = p) \x7b\x7d"

/-- Its options have one short name, which one of them takes over and the other falls back on. It
means the first. -/
theorem shortNames_of_extract_sharedLetterText : ∃ file x decl c,
    readModule sharedLetterText.toList = .ok file ∧ extract false .empty sharedLetterText = .ok x ∧
    file.declarations = [decl] ∧ x.contracts = [c] ∧
    (OptionSchema.ofContract c).options.map (fun e => (e.1, e.2.short)) =
      [("path", some "p"), ("q", some "p")] ∧
    Variables.FallsBack (Variables.bound decl.params) "q" "p" ∧
    Variables.TakesOver (Variables.bound decl.params) "path" "p" ∧
    Command.Flag.ofWord (OptionSchema.ofContract c) "-p" = .ok ⟨"path", none⟩ := by
  have hparams : (readModule sharedLetterText.toList).map (fun file =>
      file.declarations.map fun d => d.params) = .ok [[.object
        [.property (.ident "p") (.ident "p"), .property (.ident "p") (.ident "path")],
        .withDefault (.ident "q") (.name "p")]] := by cbv
  have hshorts : (extract false .empty sharedLetterText).map (fun x => x.contracts.map fun c =>
      (OptionSchema.ofContract c).options.map fun e => (e.1, e.2.short)) =
      .ok [[("path", some "p"), ("q", some "p")]] := by cbv
  obtain ⟨file, h, hparams⟩ := eq_ok_of_map_eq hparams
  obtain ⟨x, hx, hnames⟩ := shortNames_of_extract h false .empty
  rw [hx] at hshorts
  obtain ⟨decl, hdecls, hparams⟩ := List.map_eq_singleton_iff.mp hparams
  obtain ⟨c, hcs, hoptions⟩ := List.map_eq_singleton_iff.mp (Except.ok.inj hshorts)
  rw [hdecls, hcs, List.forall₂_cons] at hnames
  obtain ⟨e, es, heq, he, hes⟩ := List.map_eq_cons_iff.mp hoptions
  obtain ⟨hname, hshort⟩ := Prod.mk.inj he
  have hfirst := hnames.1.designated [] e es 'p' heq (by decide) hshort
    (List.forall_mem_nil _)
  rw [hname] at hfirst
  refine ⟨file, x, decl, c, h, hx, hdecls, hcs, hoptions, ?_, ?_, hfirst⟩
  · rw [hparams]
    exact ⟨{ name := "q", path := ⟨"1"⟩, otherName := some "p" }, by cbv, rfl⟩
  · rw [hparams]
    exact ⟨{ name := "path", path := ⟨"0.p"⟩ }, by cbv, rfl, by cbv⟩

/-- Two parameters with one letter as their fallback. -/
def oneFallbackText : String :=
  "/** @param \x7bstring\x7d [a]\n * @param \x7bstring\x7d [b] */ " ++
    "function f(a = y, b = y) \x7b\x7d"

/-- Both options get the letter as their short name. -/
theorem not_forall_shortNames_apart :
    ¬∀ (source : String) (hoist : Bool) (r : Registry) (x : Extraction),
      extract hoist r source = .ok x → ∀ c ∈ x.contracts,
        ∀ e ∈ (OptionSchema.ofContract c).options, ∀ f ∈ (OptionSchema.ofContract c).options,
          ∀ s, e.2.short = some s → f.2.short = some s → e.1 = f.1 := by
  intro h
  have hshorts : (extract false .empty oneFallbackText).map (fun x => x.contracts.map fun c =>
      (OptionSchema.ofContract c).options.map fun e => (e.1, e.2.short)) =
      .ok [[("a", some "y"), ("b", some "y")]] := by cbv
  obtain ⟨x, hx, hshorts⟩ := eq_ok_of_map_eq hshorts
  obtain ⟨c, hcs, hoptions⟩ := List.map_eq_singleton_iff.mp hshorts
  obtain ⟨e, es, heq, he, hes⟩ := List.map_eq_cons_iff.mp hoptions
  obtain ⟨f, rfl, hf⟩ := List.map_eq_singleton_iff.mp hes
  obtain ⟨hename, heshort⟩ := Prod.mk.inj he
  obtain ⟨hfname, hfshort⟩ := Prod.mk.inj hf
  have hsame := h _ _ _ x hx c (by rw [hcs]; exact List.mem_singleton_self c) e
    (by rw [heq]; exact List.mem_cons_self) f
    (by rw [heq]; exact List.mem_cons_of_mem _ List.mem_cons_self) "y" heshort hfshort
  rw [hename, hfname] at hsame
  revert hsame
  decide

end Source

end CallContract
