import CallContract.Json.Value

/-!
# Parameter patterns

What a function says about its parameters: patterns that bind names, with default values.
A declaration is a top-level function together with its place in the source text.
-/

namespace CallContract

/-- The right-hand side of a default: a literal, a name, a name with a literal to fall back
on, or any other expression as it is written. -/
inductive DefaultExpr where
  | literal (value : Json.Value)
  | name (name : String)
  | coalesce (name : String) (value : Json.Value)
  | other (text : String)
deriving Inhabited

/-- The key of a property: a name, a number as it is written, or a quoted text with its
spelling in the source. -/
inductive PropertyKey where
  | ident (name : String)
  | number (spelling : String)
  | quoted (value spelling : String)
deriving DecidableEq, Repr

namespace PropertyKey

/-- The text that stands for the key in an argument path. A quoted key with a point in it keeps
its quotes. -/
def segment : PropertyKey → String
  | ident name => name
  | number spelling => spelling
  | quoted value spelling => if value.toList.contains '.' then spelling else value

end PropertyKey

mutual

/-- A parameter pattern. -/
inductive Pattern where
  | ident (name : String)
  | rest (target : Pattern)
  | object (properties : List PropertyPattern)
  | array (elements : List (Option Pattern))
  | withDefault (target : Pattern) (value : DefaultExpr)
  | unsupported (text : String)
deriving Inhabited

/-- A property of an object pattern. -/
inductive PropertyPattern where
  | property (key : PropertyKey) (value : Pattern)
  | rest (target : Pattern)
deriving Inhabited

end

namespace Pattern

/-- The name of the kind of a pattern in diagnostics. -/
def kindName : Pattern → String
  | ident _ => "Identifier"
  | rest _ => "RestElement"
  | object _ => "ObjectPattern"
  | array _ => "ArrayPattern"
  | withDefault _ _ => "AssignmentPattern"
  | unsupported _ => "Unsupported"

end Pattern

/-- A top-level function: its name, its parameters, the byte offsets at which it starts and
stops, and where the statement before it stopped. -/
structure Declaration where
  name : String
  params : List Pattern
  start : Nat
  stop : Nat
  previousStop : Option Nat

end CallContract
