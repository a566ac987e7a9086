import CallContract.Registry.Schema
import Mathlib

/-!
# The schema of a type expression

A type expression is a registered name, a basic type, an array or an object, an enumeration of
literals, a union or unknown, and is tried in this order. For each there is one equation
(`TypeExpr.schemaOf_registered` and those after it).
-/

namespace CallContract.TypeExpr

open Json (Value Fields)

variable {r : Registry} {s : List Char}

/-- A type expression that is no name. -/
structure Unnamed (r : Registry) (s : List Char) : Prop where
  registered : r.contains (String.ofList s) = false
  primitive : primitive? (String.ofList s) = none

theorem schemaOf_registered (h : r.contains (String.ofList s) = true) :
    schemaOf r s = reference (String.ofList s) := by
  rw [schemaOf, if_pos h]

theorem schemaOf_primitive {name : String} (hr : r.contains (String.ofList s) = false)
    (h : primitive? (String.ofList s) = some name) : schemaOf r s = typeOnly name := by
  rw [schemaOf, if_neg (by simp [hr]), h]

namespace Unnamed

variable (h : Unnamed r s)

include h

/-- What is no name is read as a composite, as literals and as a union in turn. -/
theorem schemaOf_eq : schemaOf r s =
    match composite? s with
    | some (shape, e) => Fields.insert (typeOnly (shapeName shape)) (elementKeyword shape)
      (.object (schemaOf r e))
    | none =>
      match literals? s with
      | some (_, vs) => [("enum", .array vs)]
      | none =>
        if '|' ∈ s then
          [("anyOf", .array ((members s).map fun m => .object (schemaOf r m)))]
        else [] := by
  rw [schemaOf, if_neg (by simp [h.registered]), h.primitive]
  simp only
  split
  · rename_i hc
    simp only [hc]
  · rename_i hc
    simp only [hc]
    cases literals? s with
    | some e => rfl
    | none =>
      by_cases hs : '|' ∈ s
      · simp [hs]
      · simp [hs]

theorem schemaOf_composite {shape : Shape} {e : List Char} (hc : composite? s = some (shape, e)) :
    schemaOf r s = Fields.insert (typeOnly (shapeName shape)) (elementKeyword shape)
      (.object (schemaOf r e)) := by
  rw [h.schemaOf_eq, hc]

variable (hc : composite? s = none)

include hc

theorem schemaOf_literals {kind : String} {vs : List Value}
    (hl : literals? s = some (kind, vs)) : schemaOf r s = [("enum", .array vs)] := by
  rw [h.schemaOf_eq, hc, hl]

variable (hl : literals? s = none)

include hl

theorem schemaOf_union (hs : '|' ∈ s) :
    schemaOf r s = [("anyOf", .array ((members s).map fun m => .object (schemaOf r m)))] := by
  rw [h.schemaOf_eq, hc, hl]
  exact if_pos hs

theorem schemaOf_unknown (hs : '|' ∉ s) : schemaOf r s = [] := by
  rw [h.schemaOf_eq, hc, hl]
  exact if_neg hs

end Unnamed

end CallContract.TypeExpr
