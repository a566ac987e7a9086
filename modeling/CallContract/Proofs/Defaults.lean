import CallContract.Proofs.Json.RoundTrip
import CallContract.Proofs.Rows
import CallContract.Proofs.Source.Pattern

/-!
# Where defaults come from

Every default in a contract is a literal of the source text, a default that a comment documents,
or a default of a property of a named type : a property of values that holds of the defaults of
these is handed on to all rows (`carries_defaultIn`).

Literals and documented defaults are values of JSON (`Source.proper_of_literal?`,
`Doc.proper_of_defaultValue?`), so the defaults of contracts are if those of the registry are
(`Extraction.proper_of_extract`).
-/

namespace CallContract

open Json (Value)

variable {K : PropertyKey → Prop} {V : Value → Prop}

/-! ## Variables -/

/-- The default of a parameter has a property, if there is one. -/
def Parameter.DefaultIn (V : Value → Prop) (p : Parameter) : Prop := ∀ v ∈ p.default, V v

theorem Parameter.defaultIn_none {p : Parameter} (h : p.default = none) : p.DefaultIn V :=
  fun v hv => by rw [h] at hv; cases hv

theorem defaultIn_orElse {a b : Option Value} (ha : ∀ v ∈ a, V v) (hb : ∀ v ∈ b, V v) :
    ∀ v ∈ a.orElse fun _ => b, V v := by
  cases a with
  | none => exact hb
  | some a => exact ha

theorem stable_defaultIn : Variables.Stable (Parameter.DefaultIn V) where
  otherName _ _ h := h
  inherit _ _ hp hq := defaultIn_orElse hp hq

theorem DefaultExpr.defaultIn_apply {d : DefaultExpr} (h : ∀ v ∈ d.value?, V v) {p : Parameter}
    (hp : p.default = none) : (d.apply p).DefaultIn V := by
  cases d with
  | literal v => exact h
  | name n => exact Parameter.defaultIn_none hp
  | coalesce n v => exact h
  | other s => exact Parameter.defaultIn_none hp

theorem Pattern.Leaf.defaultIn {p : Pattern} {path : ArgPath} {leaf : Parameter}
    (h : p.Leaf path leaf) (hp : p.All K V) : leaf.DefaultIn V := by
  induction h with
  | ident => exact Parameter.defaultIn_none rfl
  | rest _ ih => exact ih hp
  | property hmem _ ih => exact ih (all_of_mem_properties hp hmem).2
  | nameDefault => exact DefaultExpr.defaultIn_apply hp.1 rfl
  | withDefault _ _ ih => exact ih hp.2

theorem Pattern.defaultIn_allLeaves {ps : List Pattern} {position : Nat}
    (h : Source.AllParams K V ps) : ∀ leaf ∈ allLeaves position ps, leaf.DefaultIn V := by
  intro leaf hleaf
  obtain ⟨i, p, hp, hleaf⟩ := leaf_of_mem_allLeaves leaf hleaf
  exact hleaf.defaultIn (h p (List.mem_of_getElem? hp))

/-! ## Documentation -/

/-- The defaults of properties, and of their properties, have a property. -/
def PropsIn (V : Value → Prop) : List (String × PropDef) → Prop
  | [] => True
  | (_, { default, props, .. }) :: ps => (∀ v ∈ default, V v) ∧ PropsIn V props ∧ PropsIn V ps

/-- The defaults that a named type gives have a property. -/
def TypeDef.DefaultsIn (V : Value → Prop) (d : TypeDef) : Prop := PropsIn V d.props

/-- The defaults that named types give have a property. -/
def Registry.DefaultsIn (V : Value → Prop) (r : Registry) : Prop := ∀ d ∈ r.defs, d.DefaultsIn V

theorem PropsIn.all : ∀ {ps : List (String × PropDef)}, PropsIn V ps →
    PropsAll (fun p => ∀ v ∈ p.default, V v) ps
  | [], _ => .nil
  | (_, { props, .. }) :: _, h => by
    rw [PropsIn] at h
    exact .cons h.1 h.2.1.all h.2.2.all

theorem Registry.DefaultsIn.all {r : Registry} (h : r.DefaultsIn V) :
    r.All fun p => ∀ v ∈ p.default, V v :=
  fun d hd => PropsIn.all (h d hd)

theorem Parameter.default_withComposite (p : Parameter) (c : Option (Shape × String)) :
    (p.withComposite c).default = p.default := by
  unfold withComposite
  split <;> rfl

/-- What a text in brackets says as a default has a property. -/
def Doc.TextsIn (V : Value → Prop) : Prop := ∀ raw v, defaultValue? raw = some v → V v

theorem Doc.defaultIn_tag (hV : TextsIn V) (t : Tag) :
    ∀ v ∈ t.default.bind defaultValue?, V v := by
  intro v hv
  obtain ⟨raw, _, hraw⟩ := Option.bind_eq_some_iff.mp hv
  exact hV raw v hraw

/-- What holds of the defaults of properties, bound names and documented parameters holds of those
of rows. -/
theorem carries_defaultIn (hV : Doc.TextsIn V) : Carries (fun _ => True)
    (fun p => ∀ v ∈ p.default, V v) (Parameter.DefaultIn V) (Parameter.DefaultIn V)
    (Parameter.DefaultIn V) where
  tag _ _ := trivial
  extend _ _ _ := trivial
  parameter path t _ := by
    intro v hv
    rw [Doc.parameter, Parameter.default_withComposite] at hv
    exact Doc.defaultIn_tag hV t v hv
  property t _ := Doc.defaultIn_tag hV t
  wrapped _ _ _ h := h
  ofProp name path p h := by
    intro v hv
    rw [Parameter.ofProp, Parameter.default_withComposite] at hv
    exact h v hv
  renamed _ _ h := h
  stable := stable_defaultIn
  leaf _ h := h
  merge _ _ hp hq := defaultIn_orElse hp hq
  documented _ h := h

/-! ## Literals and documented defaults -/

theorem Source.proper_numberLiteral? {s : List Char} {negative : Bool} {n : Json.Number}
    (h : numberLiteral? s negative = some n) : (Value.number n).Proper := by
  obtain ⟨x, _, rfl⟩ := Option.map_eq_some_iff.mp h
  unfold numberOfDouble
  split
  · split
    · exact ⟨by omega, by omega⟩
    · trivial
  · trivial

/-- A literal is a value of JSON. -/
theorem Source.proper_of_literal? {ts : List Token} {v : Value} (h : literal? ts = some v) :
    v.Proper := by
  unfold literal? at h
  split at h
  · split at h
    all_goals first
      | cases h; trivial
      | obtain ⟨n, hn, rfl⟩ := Option.map_eq_some_iff.mp h
        exact proper_numberLiteral? hn
      | cases h
  · split at h
    · obtain ⟨n, hn, rfl⟩ := Option.map_eq_some_iff.mp h
      exact proper_numberLiteral? hn
    · simp at h
  · simp at h

/-- A documented default is a value of JSON. -/
theorem Doc.proper_of_defaultValue? : TextsIn Value.Proper := by
  intro raw v h
  unfold defaultValue? at h
  simp only at h
  split at h
  · simp at h
  · cases hread : Value.read? (Text.trim raw.toList) with
    | none =>
      rw [hread] at h
      obtain rfl := Option.some.inj h
      trivial
    | some w =>
      rw [hread] at h
      obtain rfl := Option.some.inj h
      exact Value.proper_of_read? hread

/-! ## Contracts of a source text -/

/-- The defaults in the contracts of a source text are values of JSON, and no variable has the
name of another. -/
theorem Extraction.proper_of_extract {hoist : Bool} {r : Registry} {source : String}
    {x : Extraction} (hr : r.DefaultsIn Value.Proper) (h : extract hoist r source = .ok x) :
    ∀ c ∈ x.contracts, c.vars.Rows (Parameter.DefaultIn Value.Proper) := by
  obtain ⟨file, hfile, rfl⟩ := Source.eq_ok_of_map_eq h
  obtain ⟨l, _, hl, -⟩ := Source.declarations_of_readModule hfile
  have hparams := Source.all_of_readModule (K := fun _ => True) hfile hl (fun _ _ _ _ => trivial)
    fun _ _ => Source.proper_of_literal?
  exact rows_ofFile (carries_defaultIn Doc.proper_of_defaultValue?)
    (fun d hd => Pattern.defaultIn_allLeaves (hparams d hd)) hr.all

end CallContract
