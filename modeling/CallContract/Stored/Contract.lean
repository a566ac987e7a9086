import CallContract.Extraction
import CallContract.Json.Reader
import CallContract.Stored.Parameter

/-!
# Stored contracts

The stored form of contracts, the text in which contracts are written, and reading it.
-/

namespace CallContract

open Stored
open Json (Node Value)

namespace Contract

/-- The stored form of a contract. -/
def node (c : Contract) : Node :=
  .object (entry "name" (string c.name) ++
    entry? "description" string c.description ++
    entry "vars" (table Parameter.node c.vars))

/-- Reads a stored contract. -/
def ofNode? (depth : Nat) (n : Node) : Option Contract := do
  let ps ← parts? ["name", "description", "vars"] depth n
  some
    { name := ← ps.required? "name" string?
      description := ← ps.optional? "description" string?
      vars := ← ps.required? "vars" (table? Parameter.ofNode? (depth - 1)) }

end Contract

/-- The stored form of contracts. -/
def contractsNode (cs : List Contract) : Node := list Contract.node cs

/-- Reads stored contracts. -/
def contractsOfNode? (depth : Nat) (n : Node) : Option (List Contract) :=
  list? Contract.ofNode? depth n

/-- The text of contracts. -/
def contractsText (cs : List Contract) (indented : Bool) : String :=
  (contractsNode cs).text indented

/-- Reads the text of contracts. -/
def contractsOfText? (text : String) : Option (List Contract) :=
  (Node.read? text.toList).bind (contractsOfNode? Value.maxDepth)

end CallContract
