import CallContract.Doc
import CallContract.Leaves
import CallContract.Registry.Expansion

/-!
# Variables and their documentation

A variable and the parameter documented at its path become one row: what the function says
comes first, the documentation fills the gaps. A parameter of an object type documents all
properties of the type too; a variable that is documented as such an object, and is not taken
apart by the function, is replaced by the innermost documented parameters below it.
-/

namespace CallContract

namespace Parameter

/-- What a function says about a variable, with the gaps filled from its documentation. -/
def merge (structural documented : Parameter) : Parameter :=
  { structural with
    default := structural.default.orElse fun _ => documented.default
    description := structural.description.orElse fun _ => documented.description
    type := structural.type.orElse fun _ => documented.type
    isOptional := structural.isOptional.orElse fun _ => documented.isOptional
    shape := structural.shape.orElse fun _ => documented.shape
    element := structural.element.orElse fun _ => documented.element }

/-- The parameter that a property of an object type documents. -/
def ofProp (name : String) (path : ArgPath) (p : PropDef) : Parameter :=
  { name
    path
    default := p.default
    description := p.description
    type := p.type
    isOptional := some p.isOptional : Parameter }.withComposite (p.type.bind TypeExpr.shape?)

end Parameter

mutual

/-- The parameters that the properties of a property document. -/
def PropDef.entries (path : ArgPath) : PropDef → List (ArgPath × Parameter)
  | { props, .. } => propEntries path props

/-- The parameters that properties and their properties document, outer ones first. -/
def propEntries (parent : ArgPath) : List (String × PropDef) → List (ArgPath × Parameter)
  | [] => []
  | (name, p) :: ps =>
    let path := parent.child name
    (path, .ofProp name path p) :: (p.entries path ++ propEntries parent ps)

end

/-- Documented parameters by their paths. -/
abbrev Documented := Table ArgPath Parameter

namespace Documented

/-- The type that a documented parameter names, filled in, with the warnings about it. -/
def definition (r : Registry) (p : Parameter) : Option TypeDef × List Warning :=
  match p.type with
  | none => (none, [])
  | some t => r.expand t

/-- The parameters that a documented parameter stands for if it is of an object type. -/
def implied (r : Registry) (path : ArgPath) (p : Parameter) : List (ArgPath × Parameter) :=
  match (definition r p).1 with
  | none => []
  | some d => if d.isObject then propEntries path d.props else []

/-- Documented parameters with those that they stand for, which never take the place of one
that is there. -/
def expanded (r : Registry) (params : Documented) : Documented :=
  (params.flatMap fun e => implied r e.1 e.2).foldl (fun t e => t.insertNew e.1 e.2) params

/-- The warnings about the types of documented parameters. -/
def circles (r : Registry) (params : Documented) : List Warning :=
  params.flatMap fun e => (definition r e.2).2

/-- The documented parameters below a path. -/
def under (params : Documented) (path : ArgPath) : List Parameter :=
  params.values.filter fun p => path.isAbove p.path

/-- The documented parameters below a path that have none below them, called by the last keys
of their paths. -/
def innermost (params : Documented) (path : ArgPath) : List Parameter :=
  let ps := params.under path
  (ps.filter fun p => !ps.any fun q => p.path.isAbove q.path).map fun p =>
    { p with name := p.path.lastKey?.getD p.name }

end Documented

namespace Variables

/-- What becomes of a variable: a row of its own, or rows that take its place. -/
inductive Resolution where
  | kept (row : Parameter)
  | replaced (rows : List Parameter)

/-- Whether a row is of a registered object type. -/
def hasObjectType (r : Registry) (p : Parameter) : Bool :=
  ((p.type.bind r.find?).map TypeDef.isObject).getD false

/-- What becomes of a variable beside documented parameters. -/
def resolve (r : Registry) (documented : Documented) (leaf : Parameter) : Resolution :=
  match documented.find? leaf.path with
  | none => .kept leaf
  | some entry =>
    let row := leaf.merge entry
    let rows := if hasObjectType r row && !row.isRest then documented.innermost row.path else []
    if rows.isEmpty then .kept row else .replaced rows

/-- The row of a variable that stays. -/
def Resolution.row? : Resolution → Option Parameter
  | kept row => some row
  | replaced _ => none

/-- The rows that take the place of a variable. -/
def Resolution.rows : Resolution → List Parameter
  | kept _ => []
  | replaced rows => rows

/-- The warning about a variable with two defaults that differ. -/
def mismatch? (function name : String) (documented : Documented) (leaf : Parameter) :
    Option Warning :=
  match leaf.default, (documented.find? leaf.path).bind Parameter.default with
  | some declared, some written =>
    if declared.same written then none
    else some (.defaultMismatch function name declared written)
  | _, _ => none

/-- Adds rows under their names, and warns of those whose name is taken. -/
def addRows (function : String) (vars : Variables) : List Parameter → Variables × List Warning
  | [] => (vars, [])
  | p :: ps =>
    if vars.contains p.name then
      let (result, ws) := addRows function vars ps
      (result, .aliasCollision function p.name :: ws)
    else addRows function (vars.insert p.name p) ps

/-- The variables of a function beside its documentation, and the warnings about them. -/
def reconcile (function : String) (vars : Variables) (doc : Option Doc) (r : Registry) :
    Variables × List Warning :=
  match doc with
  | none => (vars, [])
  | some doc =>
    let documented := Documented.expanded r doc.params
    let kept := vars.filterMap fun e =>
      (resolve r documented e.2).row?.map fun row => (e.1, row)
    let rows := vars.flatMap fun e => (resolve r documented e.2).rows
    let mismatches := vars.filterMap fun e => mismatch? function e.1 documented e.2
    let (result, collisions) := addRows function kept rows
    (result, Documented.circles r doc.params ++ mismatches ++ collisions)

end Variables

end CallContract
