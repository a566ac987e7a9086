import CallContract.ArgPath
import CallContract.Json.Reader
import CallContract.Text.Integer

/-!
# Addresses

What an argument path says: a position, and the keys below it. A point within double quotes
does not end a key, and a key in double quotes is read as a JSON string if it is one.
-/

namespace CallContract

-- Powers of numbers are the built-in ones, whatever else is imported.
attribute [local instance (high)] instPowNat

/-- The position of an argument and keys of properties below it. -/
structure Address where
  position : Nat
  keys : List String
deriving DecidableEq, Repr

namespace ArgPath

/-- The pieces of a text between points that are not within double quotes. -/
def pointPieces (quoted : Bool) : List Char → List (List Char)
  | [] => [[]]
  | c :: s =>
    if c = '.' ∧ quoted = false then [] :: pointPieces false s
    else
      match pointPieces (if c = '"' then !quoted else quoted) s with
      | [] => [[c]]
      | p :: ps => (c :: p) :: ps

/-- The text that a JSON string spells. -/
def quotedKey? (s : List Char) : Option String :=
  match Json.Node.read? s with
  | some (.string spelling) => Json.Value.unquote? spelling
  | _ => none

/-- The key that a piece of a path spells. -/
def key (s : List Char) : String :=
  if 2 ≤ s.length ∧ s.head? = some '"' ∧ s.getLast? = some '"' then
    (quotedKey? s).getD (String.ofList s)
  else String.ofList s

/-- The keys that the pieces of a path spell, the first of which tells the position. -/
def segments (p : ArgPath) : List String := (pointPieces false p.text.toList).map key

/-- The address that a path spells, if it starts with a position. -/
def address? (p : ArgPath) : Option Address :=
  match p.segments with
  | [] => none
  | first :: keys => (Text.unsigned? 10 (2 ^ (64 : Nat)) first.toList).map fun i => ⟨i, keys⟩

example : (ArgPath.mk "0.\"a.b\".c").address? = some ⟨0, ["a.b", "c"]⟩ := by cbv

end ArgPath

end CallContract
