import CallContract.Json.Reader
import CallContract.Parameter
import CallContract.Text.Blank

/-!
# Type expressions

How the type of a parameter is spelled in a comment. `T[]` and `Array<T>` are arrays,
`Object<T>` and `Record<T>` objects, and literals of one kind with bars between them are an
enumeration. A composite spelling is told by its two ends alone, so `A[]|B[]` is an array;
everything between them is the element type, which is shorter than the whole.
-/

namespace CallContract.TypeExpr

open Text

/-- The text between a start and an end, without blanks around it. There is none if a line
break lies between them. -/
def between? (start stop s : List Char) : Option (List Char) :=
  ((afterStart? start s).bind (beforeEnd? stop)).bind fun inside =>
    if inside.contains '\n' then none else some (trim inside)

/-- The spellings of composite types, in the order in which they are tried: the shape, and
what stands before and after the element type. -/
def spellings : List (Shape × List Char × List Char) :=
  [(.array, [], ['[', ']']),
    (.array, ['A', 'r', 'r', 'a', 'y', '<'], ['>']),
    (.object, ['O', 'b', 'j', 'e', 'c', 't', '<'], ['>']),
    (.object, ['R', 'e', 'c', 'o', 'r', 'd', '<'], ['>'])]

/-- The shape and the element type of an array or an object. -/
def composite? (s : List Char) : Option (Shape × List Char) :=
  spellings.findSome? fun e => (between? e.2.1 e.2.2 s).map fun inside => (e.1, inside)

/-- The members of a union. -/
def members (s : List Char) : List (List Char) := (pieces '|' s).map trim

/-- Whether a value is a string. -/
def isString : Json.Value → Bool
  | .string _ => true
  | _ => false

/-- Whether a value is a number. -/
def isNumber : Json.Value → Bool
  | .number _ => true
  | _ => false

/-- The values of literals of one kind with bars between them, and the name of the kind. -/
def literals? (s : List Char) : Option (String × List Json.Value) :=
  if s.contains '|' then
    match (members s).mapM Json.Value.read? with
    | none => none
    | some vs =>
      if vs.all isString then some ("string", vs)
      else if vs.all isNumber then some ("number", vs)
      else none
  else none

/-- The shape and the element type of a composite spelling without blanks around it. -/
def classify? (s : List Char) : Option (Shape × List Char) :=
  match composite? s with
  | some c => some c
  | none => (literals? s).map fun e => (.enum, e.1.toList)

/-- The shape and the element type of a composite type. -/
def shape? (type : String) : Option (Shape × String) :=
  (classify? (trim type.toList)).map fun c => (c.1, String.ofList c.2)

example : shape? " Array< boolean >" = some (.array, "boolean") := by cbv
example : shape? "5|6|7" = some (.enum, "number") := by cbv
example : (shape? "string|number").isNone := by cbv

/-- What lies between two ends is no longer than the whole without them. -/
theorem length_of_between? {start stop s t : List Char} (h : between? start stop s = some t) :
    t.length + start.length + stop.length ≤ s.length := by
  unfold between? at h
  obtain ⟨inside, hi, ht⟩ := Option.bind_eq_some_iff.mp h
  obtain ⟨u, hu, hi⟩ := Option.bind_eq_some_iff.mp hi
  split at ht
  · cases ht
  · simp only [Option.some.injEq] at ht
    subst ht
    rw [eq_append_of_afterStart? hu, eq_append_of_beforeEnd? hi]
    have := length_trim_le inside
    simp only [List.length_append]
    omega

/-- The element type of a composite is shorter than the composite. -/
theorem length_of_composite? {s t : List Char} {k : Shape} (h : composite? s = some (k, t)) :
    t.length < s.length := by
  unfold composite? at h
  obtain ⟨e, he, hm⟩ := List.exists_of_findSome?_eq_some h
  obtain ⟨u, hu, hk⟩ := Option.map_eq_some_iff.mp hm
  cases hk
  have hb := length_of_between? hu
  have hp : 0 < e.2.1.length + e.2.2.length := by
    simp only [spellings, List.mem_cons, List.not_mem_nil, or_false] at he
    rcases he with rfl | rfl | rfl | rfl <;> decide
  omega

end CallContract.TypeExpr
