import CallContract.Json.Value

/-!
# Warnings

What is noted on the way to a contract without keeping the contract from being made.
-/

namespace CallContract

/-- A note about a source text. A circular alias is told by the chain of type names that
leads back into itself. -/
inductive Warning where
  | unsupportedPattern (function kind : String) (position : Nat)
  | defaultMismatch (function name : String) (declared documented : Json.Value)
  | circularAlias (chain : List String)
  | aliasCollision (function name : String)

namespace Warning

/-- The wording of a warning. -/
def message : Warning → String
  | unsupportedPattern f kind position =>
    "function '" ++ f ++ "': unsupported parameter pattern '" ++ kind ++ "' at position " ++
      toString position
  | defaultMismatch f name declared documented =>
    "function '" ++ f ++ "': default value mismatch for '" ++ name ++ "' (declared " ++
      declared.compact ++ ", documented " ++ documented.compact ++ ")"
  | circularAlias chain => "circular type alias: " ++ String.intercalate " -> " chain
  | aliasCollision f name =>
    "function '" ++ f ++ "': alias property '" ++ name ++
      "' collides with an existing variable"

end Warning

end CallContract
