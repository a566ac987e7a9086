import CallContract.Doc.Tag
import CallContract.Doc.TypeExpr
import CallContract.Registry
import CallContract.Registry.Range
import CallContract.Source.Token

/-!
# Documentation comments

What a documentation comment says: it describes, or documents parameters, or names a type.
A comment with a parameter tag documents parameters whatever else is in it.
-/

namespace CallContract

/-- What a documentation comment is about. -/
inductive DocKind where
  | description
  | params
  | namedType
deriving DecidableEq, Repr

/-- A documentation comment: what it is about, the documented parameters by their paths, the
named type, all tags, and where the comment starts and stops. -/
structure Doc where
  kind : DocKind
  description : Option String := none
  params : Table ArgPath Parameter := []
  namedType : Option TypeDef := none
  tags : List Tag := []
  start : Nat
  stop : Nat

/-- A text, unless it is empty. -/
def nonEmpty (s : String) : Option String := if s.isEmpty then none else some s

namespace Doc

open Text

/-- A documented default: a JSON value, or else the text itself; nothing if it is empty. -/
def defaultValue? (raw : String) : Option Json.Value :=
  let s := trim raw.toList
  if s.isEmpty then none else some ((Json.Value.read? s).getD (.string (String.ofList s)))

/-- The paths of parameter tags, of which the last undotted one before them stood at `top`.
An undotted name is the next argument, and a dotted one a property of the last; what its first
segment says does not matter. -/
def paramPaths (top : Option Nat) : List Tag → List (ArgPath × Tag)
  | [] => []
  | t :: ts =>
    match splitFirst '.' t.name.toList with
    | some (_, rest) =>
      ((ArgPath.root (top.getD 0)).child (String.ofList rest), t) :: paramPaths top ts
    | none =>
      let next := match top with
        | none => 0
        | some i => i + 1
      (ArgPath.root next, t) :: paramPaths (some next) ts

/-- The parameter that a tag documents. -/
def parameter (path : ArgPath) (t : Tag) : Parameter :=
  { name := t.name
    path
    default := t.default.bind defaultValue?
    description := nonEmpty t.description
    type := nonEmpty t.type
    isOptional := some t.isOptional : Parameter }.withComposite (TypeExpr.shape? t.type)

/-- The documented parameters by their paths; a later tag replaces one with its path. -/
def parameters (ts : List Tag) : Table ArgPath Parameter :=
  Table.ofList ((paramPaths none ts).map fun e => (e.1, parameter e.1 e.2))

/-- The property that a tag of a named type declares. -/
def property (t : Tag) : PropDef :=
  { name := t.name
    type := nonEmpty t.type
    description := nonEmpty t.description
    default := t.default.bind defaultValue?
    isOptional := t.isOptional }

/-- The first tag with a keyword. -/
def firstTag? (keyword : String) (ts : List Tag) : Option Tag := ts.find? (·.keyword == keyword)

/-- Whether a tag declares a property. -/
def isPropertyTag (t : Tag) : Bool := t.keyword == "prop" || t.keyword == "property"

/-- The properties that tags declare; a later tag replaces one with its name. -/
def properties (ts : List Tag) : List (String × PropDef) :=
  Table.ofList ((ts.filter isPropertyTag).map fun t => (t.name, property t))

/-- The named type of a comment whose type tag is `t`. A tag of its own for the base comes
before the base in the type tag, even if it is empty. -/
def typeDef (t : Tag) (ts : List Tag) (description : Option String) : TypeDef :=
  let base := nonEmpty (((firstTag? "type" ts).getD t).type)
  .ofParts t.name base (properties ts) ((firstTag? "range" ts).map Tag.name) description

/-- What a comment describes: its free text, or else its description tag. -/
def descriptionOf (b : CommentBlock) : Option String :=
  (nonEmpty b.description).orElse fun _ =>
    (firstTag? "description" b.tags).bind fun t => nonEmpty t.source

/-- What a comment block between two offsets says. -/
def ofBlock (b : CommentBlock) (start stop : Nat) : Doc :=
  let description := descriptionOf b
  let params := b.tags.filter (·.keyword == "param")
  if params.isEmpty then
    match firstTag? "typedef" b.tags with
    | none => { kind := .description, description, tags := b.tags, start, stop }
    | some t =>
      let d := typeDef t b.tags description
      { kind := .namedType, description, namedType := some d, tags := b.tags, start, stop }
  else { kind := .params, description, params := parameters params, tags := b.tags, start, stop }

/-- What a comment says, if it is a documentation comment: a block comment whose text starts
with a star. -/
def ofComment? (c : Source.Comment) : Option Doc :=
  if c.isBlock && startsWith ['*'] c.text.toList then
    some (ofBlock (.ofText c.text.toList) c.start c.stop)
  else none

end Doc

/-- The named types of documentation comments, in order. -/
def typeDefs (docs : List Doc) : List TypeDef := docs.filterMap Doc.namedType

/-- Records the named types of documentation comments. -/
def Registry.registerDocs (r : Registry) (docs : List Doc) : Registry :=
  r.registerAll (typeDefs docs)

end CallContract
