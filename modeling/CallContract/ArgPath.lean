import CallContract.Text.Split

/-!
# Argument paths

A path leads from the list of call arguments to a value in it: the position of an argument,
then the keys of properties, joined by points (`0.query.color`).
-/

namespace CallContract

/-- A path to a value within the call arguments. -/
structure ArgPath where
  text : String
deriving DecidableEq, Repr

namespace ArgPath

/-- The path of the argument at a position. -/
def root (position : Nat) : ArgPath := ⟨toString position⟩

/-- The path of a property of the value at `p`. -/
def child (p : ArgPath) (key : String) : ArgPath := ⟨p.text ++ "." ++ key⟩

/-- What follows the last point of a path. -/
def lastKey? (p : ArgPath) : Option String :=
  (Text.splitLast '.' p.text.toList).map fun q => String.ofList q.2

/-- Whether `q` continues `p` behind a point. -/
def isAbove (p q : ArgPath) : Bool := Text.startsWith (p.text.toList ++ ['.']) q.text.toList

example : ((root 0).child "query").lastKey? = some "query" := by decide +kernel
example : (root 1).isAbove ((root 1).child "a") = true := by decide +kernel
example : (root 1).isAbove (root 10) = false := by decide +kernel

end ArgPath

end CallContract
