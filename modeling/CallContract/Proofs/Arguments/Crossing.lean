import CallContract.Proofs.Arguments.Reordering
import Mathlib

/-!
# Values in the way of an option

A put stops only where something that is no object stands on its way
(`Placement.exists_of_putBelow_error`), and makes nothing but objects itself. So below the
arguments whatever is no object lies in the value of an option that was put before, which one put
keeps (`Placement.GivenBelow.mapOne`). Along a whole placement an option is refused for its path
only if the path spells no position, or if the path goes on behind the address of an option in
front, through a value given for it (`Placement.fault_of_map`).
-/

namespace CallContract

open Json (Value Fields)

namespace Placement

variable {value : Option Value} {last key : String} {v w u : Value} {keys ks : List String}
  {args args' : Arguments} {a : Address}

/-! ## What one put meets and leaves -/

/-- A value that is no object. -/
def NoObject (u : Value) : Prop := ∀ fs, u ≠ .object fs

theorem below?_append : ∀ (ks more : List String) (v : Value),
    below? (ks ++ more) v = (below? ks v).bind (below? more)
  | [], _, _ => rfl
  | k :: ks, more, v => by
    cases v with
    | object fs =>
      rw [List.cons_append, below?, below?, Option.bind_assoc]
      exact Option.bind_congr fun w _ => below?_append ks more w
    | _ => rfl

/-- A put that fails meets something that is no object at a key on its way. -/
theorem exists_of_putBelow_error : ∀ {keys : List String} {v : Value},
    putBelow value last keys v = .error key →
      ∃ ks rest u, keys ++ [last] = ks ++ key :: rest ∧ below? ks v = some u ∧ NoObject u
  | [], v, h => by
    cases v with
    | object fs => cases value <;> cases h
    | _ =>
      cases h
      exact ⟨[], [], _, rfl, rfl, nofun⟩
  | k :: keys, v, h => by
    cases v with
    | object fs =>
      rw [putBelow] at h
      cases hput : putBelow value last keys (objectAt fs k) with
      | ok w =>
        rw [objectAt] at hput
        simp [hput] at h
      | error key' =>
        obtain rfl : key = key' := by
          rw [objectAt] at hput
          simpa [hput, eq_comm] using h
        obtain ⟨ks, rest, u, hkeys, hbelow, hu⟩ := exists_of_putBelow_error hput
        refine ⟨k :: ks, rest, u, by rw [List.cons_append, hkeys, List.cons_append], ?_, hu⟩
        rw [below?]
        -- An object that is made on the way stops nothing.
        rw [objectAt] at hbelow
        cases hfind : Fields.find? fs k with
        | some w => simpa [hfind] using hbelow
        | none =>
          rw [hfind, Option.getD_none] at hbelow
          cases ks with
          | nil => exact absurd (Option.some.inj hbelow).symm (hu [])
          | cons k' ks => cases hbelow
    | _ =>
      cases h
      exact ⟨[], keys ++ [last], _, rfl, rfl, nofun⟩

/-- On the way of a put there are objects. -/
theorem isObject_along_putBelow : ∀ {keys ks : List String} {v w : Value},
    putBelow value last keys v = .ok w → ks <+: keys → below? ks w = some u → ¬NoObject u
  | keys, [], v, w, h, _, hu => by
    obtain ⟨fs, rfl⟩ := isObject_of_putBelow h
    exact fun hno => hno fs (Option.some.inj hu).symm
  | [], k :: ks, _, _, _, hp, _ => absurd hp (by simp)
  | k' :: keys, k :: ks, v, w, h, hp, hu => by
    obtain ⟨rfl, hks⟩ := List.cons_prefix_cons.mp hp
    obtain ⟨fs, x, rfl, hput, rfl⟩ := putBelow_cons.mp h
    rw [below?, Fields.find?_insert_self, Option.bind_some] at hu
    exact isObject_along_putBelow hput hks hu

/-- What a put below a value leaves is an object on the way, or lies in what was put, or was there
before. -/
theorem below?_of_putBelow (h : putBelow value last keys v = .ok w) (hu : below? ks w = some u)
    (hno : NoObject u) :
    (∃ x more, value = some x ∧ (keys ++ [last]) ++ more = ks ∧ below? more x = some u) ∨
      below? ks v = some u := by
  by_cases hup : ks <+: keys
  · exact absurd hno (isObject_along_putBelow h hup hu)
  by_cases hdown : value = none ∨ ¬keys ++ [last] <+: ks
  · exact Or.inr (by rw [← hu, below?_putBelow_of_not_prefix h hup hdown])
  · rw [not_or, not_not] at hdown
    obtain ⟨x, rfl⟩ := Option.ne_none_iff_exists'.mp hdown.1
    obtain ⟨more, rfl⟩ := hdown.2
    rw [below?_append, below?_putBelow h, Option.bind_some] at hu
    exact Or.inl ⟨x, more, rfl, rfl, hu⟩

/-! ## What an option gives -/

/-- The value given for an option has `u` at a position, where keys lead. -/
def Gives (values : Fields) (e : String × Parameter) (position : Nat) (ks : List String)
    (u : Value) : Prop :=
  ∃ a more v, e.2.path.address? = some a ∧ a.position = position ∧ a.keys ++ more = ks ∧
    coerced e.1 e.2 (given? values e.1) = .ok (some v) ∧ below? more v = some u

/-- Below the arguments, whatever is no object is given by one of the options. -/
def GivenBelow (values : Fields) (options : Variables) (args : Arguments) : Prop :=
  ∀ position ks u, ks ≠ [] → below? ks (args.valueAt position) = some u → NoObject u →
    ∃ e ∈ options, Gives values e position ks u

/-- On its way, in front of `key`, the option `f` meets a value given for `e` that is no object. -/
def Crosses (values : Fields) (e f : String × Parameter) (key : String) : Prop :=
  ∃ b ks rest u, f.2.path.address? = some b ∧ ks ≠ [] ∧ b.keys = ks ++ key :: rest ∧
    Gives values e b.position ks u ∧ NoObject u

variable {values : Fields} {options placement : Variables} {e : ArgumentError}

theorem GivenBelow.nil : GivenBelow values options [] := by
  intro position ks u hne hu _
  obtain ⟨k, ks, rfl⟩ := List.exists_cons_of_ne_nil hne
  simp [Arguments.valueAt, below?] at hu

/-- Putting one more option keeps to what the options give. -/
theorem GivenBelow.mapOne (hargs : GivenBelow values options args) {f : String × Parameter}
    (h : mapOne values args f.1 f.2 = .ok args') : GivenBelow values (options ++ [f]) args' := by
  obtain ⟨-, value, a, hvalue, ha, hput⟩ := mapOne_eq_ok_iff.mp h
  obtain ⟨o, ho, rfl⟩ := put_eq_ok_iff.mp hput
  intro position ks u hne hu hno
  have hbefore : below? ks (args.valueAt position) = some u →
      ∃ e ∈ options ++ [f], Gives values e position ks u := fun hu => by
    obtain ⟨e, he, hgives⟩ := hargs position ks u hne hu hno
    exact ⟨e, List.mem_append_left _ he, hgives⟩
  have hgiven : ∀ x more, value = some x → a.position = position → a.keys ++ more = ks →
      below? more x = some u → ∃ e ∈ options ++ [f], Gives values e position ks u := by
    rintro x more rfl hpos hkeys hx
    exact ⟨f, by simp, a, more, x, ha, hpos, hkeys, hvalue, hx⟩
  by_cases hpos : a.position = position
  · subst hpos
    cases ho with
    | whole hnil =>
      cases value with
      | none => exact hbefore hu
      | some x =>
        rw [Arguments.putAny, Arguments.valueAt_put_self] at hu
        exact hgiven x ks rfl rfl (by rw [hnil, List.nil_append]) hu
    | below hkeys hbelow =>
      rw [Arguments.putAny, Arguments.valueAt_put_self] at hu
      rcases below?_of_putBelow hbelow hu hno with ⟨x, more, hx, hks, hu⟩ | hu
      · exact hgiven x more hx rfl (by rw [hkeys, hks]) hu
      · exact hbefore (by rwa [below?_asObject hne] at hu)
  · rw [Arguments.valueAt_putAny_of_ne (Ne.symm hpos)] at hu
    exact hbefore hu

/-- A put that fails meets something that one of the options gives. -/
theorem GivenBelow.crosses (hargs : GivenBelow values options args) {f : String × Parameter}
    (ha : f.2.path.address? = some a) (h : put args a value = .error key) :
    ∃ e ∈ options, Crosses values e f key := by
  unfold put at h
  cases hlast : a.keys.getLast? with
  | none => cases value <;> simp [hlast] at h
  | some last =>
    obtain ⟨keys, hkeys⟩ := List.getLast?_eq_some_iff.mp hlast
    rw [hkeys] at hlast
    simp only [hkeys, hlast, List.dropLast_concat] at h
    cases hput : putBelow value last keys (asObject (args.valueAt a.position)) with
    | ok w => simp [hput] at h
    | error key' =>
      obtain rfl : key' = key := by simpa [hput] using h
      obtain ⟨ks, rest, u, hks, hu, hno⟩ := exists_of_putBelow_error hput
      have hne : ks ≠ [] := by
        rintro rfl
        -- The argument itself counts as an object.
        obtain ⟨fs, hfs⟩ : ∃ fs, asObject (args.valueAt a.position) = .object fs := by
          cases args.valueAt a.position <;> exact ⟨_, rfl⟩
        exact hno fs ((Option.some.inj hu).symm.trans hfs)
      rw [below?_asObject hne] at hu
      obtain ⟨e, he, hgives⟩ := hargs a.position ks u hne hu hno
      exact ⟨e, he, a, ks, rest, u, ha, hne, hkeys.trans hks, hgives, hno⟩

/-! ## A whole placement -/

/-- Why the options of a placement are refused : one of them has to be there and is not, or is not
of its type, or its path has no position, or goes through a value given for one in front. -/
inductive Fault (values : Fields) (placement : Variables) : ArgumentError → Prop
  | missingRequired {e : String × Parameter} : e ∈ placement → e.2.mayBeAbsent = false →
    (given? values e.1).all isFalsy = true → Fault values placement (.missingRequired e.1)
  | typeMismatch {e : String × Parameter} {t : NumericType} {v w : Value} : e ∈ placement →
    e.2.numericType? = some t → given? values e.1 = some v → Coercion.numeric t v = .error w →
      Fault values placement (.typeMismatch e.1 t w)
  | noPosition {e : String × Parameter} : e ∈ placement → e.2.path.address? = none →
    Fault values placement (.noPosition e.2.path)
  | throughValue {front behind : Variables} {e f : String × Parameter} {key : String} :
    placement = front ++ f :: behind → e ∈ front → Crosses values e f key →
      Fault values placement (.throughValue f.2.path key)

theorem numeric_of_coerced {option : String} {p : Parameter}
    (h : coerced option p value = .error e) : ∃ t v w, p.numericType? = some t ∧
      value = some v ∧ Coercion.numeric t v = .error w ∧ e = .typeMismatch option t w := by
  unfold coerced at h
  split at h
  · rename_i v t ht
    split at h
    · cases h
    · rename_i w hw
      cases h
      exact ⟨t, v, w, ht, rfl, hw, rfl⟩
  · cases h

theorem fault_of_mapOne (hargs : GivenBelow values options args) {f : String × Parameter}
    {behind : Variables} (h : mapOne values args f.1 f.2 = .error e) :
    Fault values (options ++ f :: behind) e := by
  have hmem : f ∈ options ++ f :: behind := by simp
  unfold Placement.mapOne at h
  simp only at h
  split at h
  · rename_i hrequired
    cases h
    exact .missingRequired hmem hrequired.1 hrequired.2
  split at h
  · rename_i e' he
    cases h
    obtain ⟨t, v, w, ht, hv, hw, rfl⟩ := numeric_of_coerced he
    exact .typeMismatch hmem ht hv hw
  split at h
  · rename_i ha
    cases h
    exact .noPosition hmem ha
  · rename_i a ha
    split at h
    · rename_i key hput
      cases h
      obtain ⟨e, he, hcrosses⟩ := hargs.crosses ha hput
      exact .throughValue rfl he hcrosses
    · cases h

/-- The induction is along the options that are still to be put : those that have been put give
what stands in the way. -/
theorem fault_of_mapOnto : ∀ {placement options : Variables} {args : Arguments},
    GivenBelow values options args → mapOnto values args placement = .error e →
      Fault values (options ++ placement) e
  | [], _, _, _, h => by cases h
  | f :: placement, options, args, hargs, h => by
    rw [mapOnto] at h
    cases hone : mapOne values args f.1 f.2 with
    | error e' =>
      obtain rfl : e = e' := by simpa [hone, eq_comm] using h
      exact fault_of_mapOne hargs hone
    | ok args₁ =>
      rw [← List.singleton_append, ← List.append_assoc]
      exact fault_of_mapOnto (hargs.mapOne hone) (by simpa [hone] using h)

/-- Options are refused for nothing else. -/
theorem fault_of_map (h : map placement values = .error e) : Fault values placement e := by
  have hnil : GivenBelow values [] [] := .nil
  exact fault_of_mapOnto hnil h

theorem length_of_mapOnto {n : Nat} : ∀ {placement : Variables} {args args' : Arguments},
    (∀ e ∈ placement, ∀ a ∈ e.2.path.address?, a.position < n) → args.length ≤ n →
      mapOnto values args placement = .ok args' → args'.length ≤ n
  | [], _, _, _, hlen, h => by rwa [← Except.ok.inj h]
  | e :: placement, args, args', hpos, hlen, h => by
    obtain ⟨he, hrest⟩ := List.forall_mem_cons.mp hpos
    obtain ⟨args₁, hone, hmore⟩ := mapOnto_cons h
    obtain ⟨-, value, a, -, ha, hput⟩ := mapOne_eq_ok_iff.mp hone
    obtain ⟨o, -, rfl⟩ := put_eq_ok_iff.mp hput
    refine length_of_mapOnto hrest ?_ hmore
    cases o with
    | none => exact hlen
    | some v =>
      rw [Arguments.putAny, Arguments.length_put]
      exact max_le hlen (he a ha)

/-- There are no more call arguments than positions that the options are put at. -/
theorem length_of_map {n : Nat} (hpos : ∀ e ∈ placement, ∀ a ∈ e.2.path.address?, a.position < n)
    (h : map placement values = .ok args) : args.length ≤ n := by
  have hnil : ([] : Arguments).length ≤ n := Nat.zero_le n
  exact length_of_mapOnto hpos hnil h

end Placement

end CallContract
