import CallContract.Parameter
import CallContract.Pattern
import CallContract.Warning

/-!
# Variables of a function

The names that parameter patterns bind, each with the path of the call argument that it gets.
Two names for one path, of which one is the last key of the path, are collapsed into the other;
a name that another variable falls back on is dropped, and the variable inherits its default.
-/

namespace CallContract

namespace DefaultExpr

/-- A parameter with a default. -/
def apply (value : DefaultExpr) (p : Parameter) : Parameter :=
  match value with
  | literal v => { p with default := some v, isOptional := some true }
  | name n => { p with otherName := some n }
  | coalesce n v => { p with otherName := some n, default := some v, isOptional := some true }
  | other _ => { p with isOptional := some true }

end DefaultExpr

/-- A parameter that takes all arguments from its position on. -/
def Parameter.asRest (p : Parameter) : Parameter :=
  { p with isRest := true, shape := some .array }

namespace Pattern

mutual

/-- The names that a pattern binds when it is given the value at a path. A default is seen only
at a name. -/
def leaves : Pattern → ArgPath → List Parameter
  | ident name, path => [{ name, path }]
  | rest target, path => (target.leaves path).map Parameter.asRest
  | object properties, path => propertyLeaves properties path
  | withDefault (ident name) value, path => [value.apply { name, path }]
  | withDefault target _, path => target.leaves path
  | array _, _ => []
  | unsupported _, _ => []

/-- The names that properties bind; what is left over is not bound. -/
def propertyLeaves : List PropertyPattern → ArgPath → List Parameter
  | [], _ => []
  | .property key value :: ps, path =>
    value.leaves (path.child key.segment) ++ propertyLeaves ps path
  | .rest _ :: ps, path => propertyLeaves ps path

end

mutual

/-- The kinds of the parts of a pattern that bind nothing because they cannot be followed. -/
def gaps : Pattern → List String
  | ident _ => []
  | rest target => target.gaps
  | object properties => propertyGaps properties
  | withDefault target _ => target.gaps
  | array es => [(array es).kindName]
  | unsupported text => [(unsupported text).kindName]

/-- The kinds of the parts of properties that cannot be followed. -/
def propertyGaps : List PropertyPattern → List String
  | [] => []
  | .property _ value :: ps => value.gaps ++ propertyGaps ps
  | .rest _ :: ps => propertyGaps ps

end

/-- The names that patterns bind, the first of them standing at a position. -/
def allLeaves (position : Nat) : List Pattern → List Parameter
  | [] => []
  | p :: ps => p.leaves (.root position) ++ allLeaves (position + 1) ps

/-- The warnings about patterns, the first of them standing at a position. -/
def allGaps (function : String) (position : Nat) : List Pattern → List Warning
  | [] => []
  | p :: ps =>
    p.gaps.map (fun kind => .unsupportedPattern function kind position) ++
      allGaps function (position + 1) ps

end Pattern

namespace Variables

/-- Drops the variable `name` if it is called like the last key of its path and another variable
has the same path; the first such variable gets `name` as its other name, unless it has one. -/
def dropShared (vars : Variables) (name : String) : Variables :=
  match vars.find? name with
  | none => vars
  | some p =>
    if p.path.lastKey? = some name then
      match List.find? (fun e => decide (e.1 ≠ name ∧ e.2.path = p.path)) vars with
      | none => vars
      | some (keeper, _) =>
        (vars.erase name).modify keeper fun k =>
          { k with otherName := some (k.otherName.getD name) }
    else vars

/-- Drops the variable that the variable `name` falls back on; `name` inherits what it has no
default and no word about being optional for. -/
def dropFallback (vars : Variables) (name : String) : Variables :=
  match (vars.find? name).bind Parameter.otherName with
  | none => vars
  | some fallback =>
    if fallback = name then vars
    else
      match vars.find? fallback with
      | none => vars
      | some f =>
        (vars.erase fallback).modify name fun k =>
          { k with
            default := k.default.orElse fun _ => f.default
            isOptional := k.isOptional.orElse fun _ => f.isOptional }

/-- Drops what shares its path with another variable, going through the names in order. -/
def collapseShared (vars : Variables) : Variables := vars.keys.foldl dropShared vars

/-- Drops what another variable falls back on, going through the names in order. -/
def collapseFallbacks (vars : Variables) : Variables := vars.keys.foldl dropFallback vars

/-- The variables that parameter patterns bind. -/
def ofPatterns (params : List Pattern) : Variables :=
  let leaves := (Pattern.allLeaves 0 params).map fun p => (p.name, p)
  collapseFallbacks (collapseShared (Table.ofList leaves))

end Variables

end CallContract
