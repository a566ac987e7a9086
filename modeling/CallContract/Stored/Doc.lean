import CallContract.Doc
import CallContract.Stored.Parameter
import CallContract.Stored.TypeDef

/-!
# Stored documentation

The stored forms of tags, comment blocks and documentation comments.
-/

namespace CallContract

open Stored
open Json (Node)

namespace Tag

/-- The stored form of a tag. -/
def node (t : Tag) : Node :=
  .object (entry "tag" (string t.keyword) ++
    entry "name" (string t.name) ++
    entry "type" (string t.type) ++
    entry "description" (string t.description) ++
    entry? "default" string t.default ++
    entry "optional" (.bool t.isOptional) ++
    entry "source" (string t.source))

/-- The names of the parts of a tag. -/
def partNames : List String :=
  ["tag", "name", "type", "description", "default", "optional", "source"]

/-- Reads a stored tag. -/
def ofNode? (depth : Nat) (n : Node) : Option Tag := do
  let ps ← parts? partNames depth n
  some
    { keyword := ← ps.required? "tag" string?
      name := ← ps.required? "name" string?
      type := ← ps.required? "type" string?
      description := ← ps.required? "description" string?
      default := ← ps.optional? "default" string?
      isOptional := ← ps.required? "optional" bool?
      source := ← ps.required? "source" string? }

end Tag

namespace CommentBlock

/-- The stored form of a comment block. -/
def node (b : CommentBlock) : Node :=
  .object (entry "description" (string b.description) ++
    entry "tags" (list Tag.node b.tags))

/-- Reads a stored comment block. -/
def ofNode? (depth : Nat) (n : Node) : Option CommentBlock := do
  let ps ← parts? ["description", "tags"] depth n
  some
    { description := ← ps.required? "description" string?
      tags := ← ps.required? "tags" (list? Tag.ofNode? (depth - 1)) }

end CommentBlock

/-- The name of a kind of documentation comment. -/
def DocKind.name : DocKind → String
  | description => "description"
  | params => "params"
  | namedType => "typedef"

/-- All kinds of documentation comments. -/
def DocKind.all : List DocKind := [description, params, namedType]

namespace Doc

/-- The stored form of a documentation comment. -/
def node (d : Doc) : Node :=
  .object (entry "kind" (string d.kind.name) ++
    entry? "description" string d.description ++
    entry "paramsByPath" (table Parameter.node (d.params.map fun e => (e.1.text, e.2))) ++
    entry? "typedef" TypeDef.node d.namedType ++
    entry "tags" (list Tag.node d.tags) ++
    entry "start" (nat d.start) ++
    entry "end" (nat d.stop))

/-- The names of the parts of a documentation comment. -/
def partNames : List String :=
  ["kind", "description", "paramsByPath", "typedef", "tags", "start", "end"]

/-- Reads a stored documentation comment. -/
def ofNode? (depth : Nat) (n : Node) : Option Doc := do
  let ps ← parts? partNames depth n
  let inner := depth - 1
  let params ← ps.required? "paramsByPath" (table? Parameter.ofNode? inner)
  some
    { kind := ← ps.required? "kind" (oneOf? DocKind.all DocKind.name inner)
      description := ← ps.optional? "description" string?
      params := params.map fun e => (⟨e.1⟩, e.2)
      namedType := ← ps.optional? "typedef" (TypeDef.ofNode? inner)
      tags := ← ps.required? "tags" (list? Tag.ofNode? inner)
      start := ← ps.required? "start" nat?
      stop := ← ps.required? "end" nat? }

end Doc

end CallContract
