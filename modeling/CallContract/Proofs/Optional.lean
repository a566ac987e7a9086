import CallContract.OptionSchema
import CallContract.Proofs.Arguments.Crossing
import CallContract.Proofs.Rows

/-!
# What has a default is optional

A default and the word that a parameter is optional go different ways : a literal in a pattern
gives both, brackets around the name in a tag give the word and the default if there is one, and
each is inherited and filled in without the other. Still a row with a default says that it is
optional (`carries_optionalIfDefault`), because what a pattern says never is that a name is not
optional. So call arguments are never refused for want of a value that has a default
(`optional_of_extractInTurn`).
-/

namespace CallContract

/-! ## Rows -/

namespace Parameter

/-- A parameter is optional if it has a default. -/
def OptionalIfDefault (p : Parameter) : Prop := p.default.isSome = true → p.isOptional = some true

/-- A bound name is optional if it has a default, and is never said not to be. -/
structure BoundOptional (p : Parameter) : Prop where
  optional : p.OptionalIfDefault
  not_false : p.isOptional ≠ some false

theorem OptionalIfDefault.withComposite {p : Parameter} (h : p.OptionalIfDefault)
    (c : Option (Shape × String)) : (p.withComposite c).OptionalIfDefault := by
  cases c <;> exact h

/-- What is given where nothing is said, and is not refused, is there. -/
theorem orElse_eq_some_true {a b : Option Bool} (ha : a ≠ some false) (hb : b = some true) :
    (a.orElse fun _ => b) = some true := by
  match a with
  | none => exact hb
  | some true => rfl
  | some false => exact absurd rfl ha

/-- A default and the word about it that come from a bound name or else from another parameter. -/
theorem BoundOptional.orElse {p q : Parameter} (hp : p.BoundOptional) (hq : q.OptionalIfDefault)
    (h : (p.default.orElse fun _ => q.default).isSome = true) :
    (p.isOptional.orElse fun _ => q.isOptional) = some true := by
  cases hd : p.default with
  | some v => rw [hp.optional (by rw [hd]; rfl)]; rfl
  | none =>
    rw [hd] at h
    exact orElse_eq_some_true hp.not_false (hq h)

theorem stable_boundOptional : Variables.Stable BoundOptional where
  otherName _ _ h := ⟨h.optional, h.not_false⟩
  inherit p q hp hq := by
    refine ⟨hp.orElse hq.optional, ?_⟩
    have hnot := hp.not_false
    cases hpo : p.isOptional with
    | none => simpa [hpo] using hq.not_false
    | some b => simpa [hpo] using hnot

end Parameter

theorem DefaultExpr.boundOptional_apply (d : DefaultExpr) {p : Parameter} (hd : p.default = none)
    (ho : p.isOptional = none) : (d.apply p).BoundOptional := by
  have hnone : p.OptionalIfDefault := fun h => by simp [hd] at h
  cases d with
  | literal v => exact ⟨fun _ => rfl, by simp [apply]⟩
  | name n => exact ⟨hnone, by simp [apply, ho]⟩
  | coalesce n v => exact ⟨fun _ => rfl, by simp [apply]⟩
  | other s => exact ⟨fun _ => rfl, by simp [apply]⟩

theorem Pattern.Leaf.boundOptional {p : Pattern} {path : ArgPath} {leaf : Parameter}
    (h : p.Leaf path leaf) : leaf.BoundOptional := by
  induction h with
  | ident => exact ⟨nofun, nofun⟩
  | rest _ ih => exact ⟨ih.optional, ih.not_false⟩
  | property _ _ ih => exact ih
  | nameDefault => exact DefaultExpr.boundOptional_apply _ rfl rfl
  | withDefault _ _ ih => exact ih

/-! ## Tags -/

namespace Tag

theorem Naming.isOptional_ofBracketed (inside : List Char) :
    (ofBracketed inside).isOptional = true := by
  unfold ofBracketed
  split <;> rfl

/-- Only a name in brackets has a default. -/
theorem isOptional_namePart {s : List Char} (h : (namePart s).1.default.isSome = true) :
    (namePart s).1.isOptional = true := by
  unfold namePart at h ⊢
  cases hb : Text.startsWith ['['] s with
  | false => simp [hb] at h
  | true =>
    cases hc : bracketed? '[' ']' s with
    | none => simp [hb, hc] at h
    | some p => simp [Naming.isOptional_ofBracketed]

theorem isOptional_ofParts {keyword source : List Char}
    (h : (ofParts keyword source).default.isSome = true) :
    (ofParts keyword source).isOptional = true := by
  unfold ofParts at h ⊢
  simp only [Option.isSome_map] at h ⊢
  exact isOptional_namePart h

end Tag

theorem Doc.isSome_of_bind {t : Tag} (h : (t.default.bind defaultValue?).isSome = true) :
    t.default.isSome = true := by
  cases hd : t.default with
  | none => simp [hd] at h
  | some s => rfl

/-- That a default makes optional is handed on from tags, properties and bound names to rows. -/
theorem carries_optionalIfDefault : Carries
    (fun t => t.default.isSome = true → t.isOptional = true)
    (fun p => p.default.isSome = true → p.isOptional = true) Parameter.BoundOptional
    Parameter.OptionalIfDefault Parameter.OptionalIfDefault where
  tag _ _ := Tag.isOptional_ofParts
  extend _ _ h := h
  parameter _ _ h := .withComposite (fun hd => congrArg some (h (Doc.isSome_of_bind hd))) _
  property _ h := fun hd => h (Doc.isSome_of_bind hd)
  wrapped _ _ _ h := h
  ofProp _ _ _ h := .withComposite (fun hd => congrArg some (h hd)) _
  renamed _ _ h := h
  stable := Parameter.stable_boundOptional
  leaf _ h := h.optional
  merge _ _ hp hq := hp.orElse hq
  documented _ h := h

/-! ## Call arguments -/

namespace Placement

/-- An option is missed only if its parameter may not be absent. -/
theorem required_of_mapOnto {values : Json.Fields} {option : String} {placement : Variables}
    (h : mapOnto values [] placement = .error (.missingRequired option)) :
    ∃ p, (option, p) ∈ placement ∧ p.mayBeAbsent = false := by
  cases fault_of_map h with
  | missingRequired he habsent => exact ⟨_, he, habsent⟩

end Placement

/-! ## Contracts of source texts -/

/-- In the contracts of texts that are read in turn, from no named types on, every variable with a
default is optional, and no option with a default is ever missed. -/
theorem optional_of_extractInTurn {hoist : Bool} {sources : List String} {x : Extraction}
    (hx : .ok x ∈ (extractInTurn hoist .empty sources).1) : ∀ c ∈ x.contracts,
      (∀ e ∈ c.vars, e.2.default.isSome = true → e.2.isOptional = some true) ∧
      ∀ values option, Placement.map (OptionSchema.ofContract c).placement values =
        .error (.missingRequired option) →
          ∃ p, c.vars.find? option = some p ∧ p.default = none := by
  intro c hc
  have hleaves : ∀ patterns, ∀ leaf ∈ Pattern.allLeaves 0 patterns, leaf.BoundOptional := by
    intro patterns leaf hleaf
    obtain ⟨_, _, _, hbinds⟩ := Pattern.leaf_of_mem_allLeaves leaf hleaf
    exact hbinds.boundOptional
  have hrows := Extraction.rows_extractInTurn carries_optionalIfDefault hleaves .empty hx c hc
  refine ⟨hrows.row, fun values option herror => ?_⟩
  obtain ⟨p, hp, habsent⟩ := Placement.required_of_mapOnto herror
  have hmem : (option, p) ∈ c.vars := (List.mem_filter.mp hp).1
  refine ⟨p, (Table.find?_eq_some_iff hrows.nodup).mpr hmem, ?_⟩
  cases hd : p.default with
  | none => rfl
  | some v =>
    have hoptional := hrows.row _ hmem (by rw [hd]; rfl)
    rw [Parameter.mayBeAbsent, hoptional] at habsent
    cases habsent

/-- A text that names a type with a default, and one with a function that takes such an object. -/
def sharedTypeTexts : List String :=
  ["/** @typedef P\n@prop \x7bnumber\x7d [n=1] */",
    "/** @param \x7bP\x7d p */ function f(p) \x7b\x7d"]

/-- The default of the property makes the variable of the function optional. -/
theorem optional_of_extractInTurn_sharedType :
    ∃ x, .ok x ∈ (extractInTurn false .empty sharedTypeTexts).1 ∧ ∃ c ∈ x.contracts,
      (c.vars.map fun e => (e.1, e.2.path.text, e.2.default.isSome, e.2.isOptional)) =
        [("n", "0.n", true, some true)] ∧
      ∀ e ∈ c.vars, e.2.default.isSome = true → e.2.isOptional = some true := by
  have hrun : ((extractInTurn false .empty sharedTypeTexts).1.map fun result =>
      result.toOption.map fun x => x.contracts.map fun c => c.vars.map fun e =>
        (e.1, e.2.path.text, e.2.default.isSome, e.2.isOptional)) =
      [some [], some [[("n", "0.n", true, some true)]]] := by cbv
  have hlast : some [[("n", "0.n", true, some true)]] ∈ [some [], some [_]] :=
    List.mem_cons_of_mem _ List.mem_cons_self
  rw [← hrun] at hlast
  obtain ⟨result, hresult, hrows⟩ := List.mem_map.mp hlast
  cases result with
  | error e => cases hrows
  | ok x =>
    obtain ⟨c, hc, hvars⟩ := List.mem_map.mp (Option.some.inj hrows ▸ List.mem_cons_self)
    exact ⟨x, hresult, c, hc, hvars, (optional_of_extractInTurn hresult c hc).1⟩

end CallContract
