import CallContract.Json.Node
import CallContract.Json.Number
import CallContract.Json.Quoted

/-!
# JSON values

What a JSON text means: fields are sorted by key, and of a repeated key the last field
counts. `Value.ofNode?` reads a node, to a depth of nested arrays and objects; `Value.node`
is the node that is written for a value.
-/

namespace CallContract.Json

/-- A JSON value. The fields of an object are in ascending order of their keys. -/
inductive Value where
  | null
  | bool (value : Bool)
  | number (value : Number)
  | string (value : String)
  | array (items : List Value)
  | object (fields : List (String × Value))
deriving Inhabited

/-- The fields of an object. -/
abbrev Fields := List (String × Value)

namespace Fields

/-- Sets a field, keeping the keys in ascending order. -/
def insert : Fields → String → Value → Fields
  | [], k, v => [(k, v)]
  | (k', v') :: fs, k, v =>
    if k = k' then (k, v) :: fs
    else if k < k' then (k, v) :: (k', v') :: fs
    else (k', v') :: insert fs k v

/-- The value of a field. -/
def find? : Fields → String → Option Value
  | [], _ => none
  | (k', v) :: fs, k => if k' = k then some v else find? fs k

/-- The fields of a list of pairs, of which the last of a key counts. -/
def ofList (l : List (String × Value)) : Fields := l.foldl (fun fs e => insert fs e.1 e.2) []

/-- Sets all fields of `l` in turn. -/
def extend (fs : Fields) (l : List (String × Value)) : Fields :=
  l.foldl (fun fs e => insert fs e.1 e.2) fs

end Fields

namespace Value

mutual

/-- Numerical equality of values: doubles are compared as numbers. -/
def same : Value → Value → Bool
  | .null, .null => true
  | .bool a, .bool b => a == b
  | .number a, .number b => a.same b
  | .string a, .string b => a == b
  | .array as, .array bs => sameItems as bs
  | .object as, .object bs => sameFields as bs
  | _, _ => false

/-- Equality of items in order. -/
def sameItems : List Value → List Value → Bool
  | [], [] => true
  | a :: as, b :: bs => same a b && sameItems as bs
  | _, _ => false

/-- Equality of fields in order. -/
def sameFields : List (String × Value) → List (String × Value) → Bool
  | [], [] => true
  | (k, a) :: as, (l, b) :: bs => k == l && same a b && sameFields as bs
  | _, _ => false

end

mutual

/-- The node written for a value. -/
def node : Value → Node
  | .null => .null
  | .bool b => .bool b
  | .number n => .number n.numeral
  | .string s => .string (escape s.toList)
  | .array items => .array (nodes items)
  | .object fields => .object (fieldNodes fields)

/-- The nodes written for items. -/
def nodes : List Value → List Node
  | [] => []
  | v :: vs => node v :: nodes vs

/-- The nodes written for fields. -/
def fieldNodes : List (String × Value) → List (List Char × Node)
  | [] => []
  | (k, v) :: fs => (escape k.toList, node v) :: fieldNodes fs

end

/-- The text of a value in one line. -/
def compact (v : Value) : String := v.node.text false

/-- The string that a spelling between quotes stands for. -/
def unquote? (spelling : List Char) : Option String := (unescape? spelling).map String.ofList

mutual

/-- The value of a node that nests arrays and objects at most `depth` deep. -/
def ofNode? : Nat → Node → Option Value
  | _, .null => some .null
  | _, .bool b => some (.bool b)
  | _, .number n => (Number.read? n).map .number
  | _, .string s => (unquote? s).map .string
  | depth, .array items => if depth = 0 then none else (ofNodes? (depth - 1) items).map .array
  | depth, .object fields =>
    if depth = 0 then none
    else (ofFields? (depth - 1) fields).map fun l => .object (Fields.ofList l)

/-- The values of nodes. -/
def ofNodes? : Nat → List Node → Option (List Value)
  | _, [] => some []
  | depth, n :: ns =>
    match ofNode? depth n, ofNodes? depth ns with
    | some v, some vs => some (v :: vs)
    | _, _ => none

/-- The values of fields. -/
def ofFields? : Nat → List (List Char × Node) → Option (List (String × Value))
  | _, [] => some []
  | depth, (k, n) :: fs =>
    match unquote? k, ofNode? depth n, ofFields? depth fs with
    | some k, some v, some vs => some ((k, v) :: vs)
    | _, _, _ => none

end

end Value

end CallContract.Json
