import CallContract.Json.Value
import CallContract.Table

/-!
# Records as JSON

A record is written as an object with one field for each of its parts in a fixed order; a part
that is missing is left out. It is read from an object with its fields in any order, each at
most once, or from an array with its parts in their order, as many as there are; other fields
of the object are ignored. Arrays and objects may nest as deep as a given number.
-/

namespace CallContract.Stored

open Json (Node Value Fields escape)

/-! ## Writing -/

/-- A string as a node. -/
def string (s : String) : Node := .string (escape s.toList)

/-- A natural number as a node. -/
def nat (n : Nat) : Node := .number (Json.Number.integer n).numeral

/-- A field. -/
abbrev Entry := List Char × Node

/-- A field that is there. -/
def entry (key : String) (n : Node) : List Entry := [(escape key.toList, n)]

/-- A field that is left out if it has no value. -/
def entry? {α : Type} (key : String) (f : α → Node) : Option α → List Entry
  | none => []
  | some a => entry key (f a)

/-- A table as an object, its keys in their order. -/
def table {α : Type} (f : α → Node) (t : List (String × α)) : Node :=
  .object (t.map fun e => (escape e.1.toList, f e.2))

/-- A list as an array. -/
def list {α : Type} (f : α → Node) (l : List α) : Node := .array (l.map f)

/-! ## Reading the parts of records -/

/-- Reads a string. -/
def string? : Node → Option String
  | .string s => Value.unquote? s
  | _ => none

/-- Reads a truth value. -/
def bool? : Node → Option Bool
  | .bool b => some b
  | _ => none

/-- The natural number of 64 bits that a value is. -/
def natOf? : Value → Option Nat
  | .number (.integer i) => if 0 ≤ i then some i.toNat else none
  | _ => none

/-- Reads a natural number of 64 bits. -/
def nat? : Node → Option Nat
  | .number n => (Json.Number.read? n).bind fun m => natOf? (.number m)
  | _ => none

/-- Reads one of some values by its name: a string, or an object whose only field has that name
and is null. -/
def oneOf? {α : Type} (all : List α) (name : α → String) (depth : Nat) : Node → Option α
  | .string s => (Value.unquote? s).bind fun t => all.find? fun a => name a == t
  | .object [(k, .null)] =>
    if depth = 0 then none
    else (Value.unquote? k).bind fun t => all.find? fun a => name a == t
  | _ => none

/-- Reads the items of an array, to what depth is left within it. -/
def list? {α : Type} (read : Nat → Node → Option α) (depth : Nat) : Node → Option (List α)
  | .array items => if depth = 0 then none else items.mapM (read (depth - 1))
  | _ => none

/-- Reads fields by their keys. -/
def fields? {α : Type} (read : Node → Option α) (fields : List Entry) :
    Option (List (String × α)) :=
  fields.mapM fun e =>
    match Value.unquote? e.1, read e.2 with
    | some k, some a => some (k, a)
    | _, _ => none

/-- Reads a table, to what depth is left within it. Of a repeated key the last value counts. -/
def table? {α : Type} (read : Nat → Node → Option α) (depth : Nat) :
    Node → Option (Table String α)
  | .object fs => if depth = 0 then none else (fields? (read (depth - 1)) fs).map Table.ofList
  | _ => none

/-! ## Reading records -/

/-- The parts of a record by their names. -/
abbrev Parts := Table String Node

/-- The parts with some names among fields, none of which may be repeated. -/
def known? (names : List String) (fields : List (String × Node)) : Option Parts :=
  let known := fields.filter fun e => names.contains e.1
  if (known.map Prod.fst).Nodup then some known else none

/-- The parts of a record whose parts have some names. -/
def parts? (names : List String) (depth : Nat) : Node → Option Parts
  | .array items =>
    if depth = 0 ∨ names.length < items.length then none else some (names.zip items)
  | .object fs => if depth = 0 then none else (fields? some fs).bind (known? names)
  | _ => none

namespace Parts

/-- Reads a part that has to be there. -/
def required? {α : Type} (ps : Parts) (name : String) (read : Node → Option α) : Option α :=
  (ps.find? name).bind read

/-- Reads a part that may be missing; null is missing too. -/
def optional? {α : Type} (ps : Parts) (name : String) (read : Node → Option α) :
    Option (Option α) :=
  match ps.find? name with
  | none => some none
  | some .null => some none
  | some n => (read n).map some

/-- Reads a part that has a value when it is missing. -/
def orElse? {α : Type} (ps : Parts) (name : String) (missing : α) (read : Node → Option α) :
    Option α :=
  match ps.find? name with
  | none => some missing
  | some n => read n

end Parts

/-- The parts of a record that is an object, and its other fields, whose values all have to be
valid. -/
def openParts? (names : List String) (depth : Nat) :
    Node → Option (Parts × List (String × Value))
  | .object fs =>
    if depth = 0 then none
    else
      match fields? some fs with
      | none => none
      | some fields =>
        let others := fields.filter fun e => !names.contains e.1
        match known? names fields,
          others.mapM fun e => (Value.ofNode? (depth - 1) e.2).map fun v => (e.1, v) with
        | some ps, some vs => some (ps, vs)
        | _, _ => none
  | _ => none

end CallContract.Stored
