import CallContract.Doc
import CallContract.Pattern

/-!
# Which comment documents which declaration

Comments and declarations are both in the order of the text, so one place in the list of
comments, the last one passed, is carried from declaration to declaration. The comment that
documents a declaration is the last one that stops before the declaration does, unless it lies
before the end of the statement in front, or names a type.
-/

namespace CallContract

/-- The last comment passed, and the comment that documents a declaration. -/
structure Association where
  cursor : Option Nat
  doc : Option Nat
deriving DecidableEq, Repr

namespace Association

/-- The first place behind the last comment passed. -/
def nextPlace : Option Nat → Nat
  | none => 0
  | some i => i + 1

/-- Passes all comments in a row that stop before an offset. -/
def advance (docs : List Doc) (stop : Nat) (cursor : Option Nat) : Option Nat :=
  let next := nextPlace cursor
  let passed := ((docs.drop next).takeWhile fun d => d.stop < stop).length
  if passed = 0 then cursor else some (next + passed - 1)

/-- Whether a comment may document a declaration that it precedes. -/
def accepts (decl : Declaration) (doc : Doc) : Bool :=
  (match decl.previousStop with
    | none => true
    | some p => p ≤ doc.start) && doc.kind != .namedType

/-- Finds the comment that documents a declaration. -/
def find (docs : List Doc) (decl : Declaration) (cursor : Option Nat) : Association :=
  let cursor := advance docs decl.stop cursor
  ⟨cursor, cursor.filter fun i => (docs[i]?).any (accepts decl)⟩

end Association

end CallContract
