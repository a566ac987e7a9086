import CallContract.Number.Numeral

/-!
# JSON text as a tree

A `Node` is a JSON text without its blanks: numbers as numerals, strings as they are spelled
between their quotes, fields in order with repetitions. Writing is done from nodes, in one
line (`Node.compact`) or with one item a line, indented by two blanks a level
(`Node.pretty`).
-/

namespace CallContract.Json

/-- A JSON text as a tree. -/
inductive Node where
  | null
  | bool (value : Bool)
  | number (numeral : Numeral)
  | string (spelling : List Char)
  | array (items : List Node)
  | object (fields : List (List Char × Node))
deriving Inhabited

namespace Node

/-- A text between quotes. -/
def quoted (spelling : List Char) : List Char := '"' :: (spelling ++ ['"'])

mutual

/-- The text of a node in one line, without blanks. -/
def compact : Node → List Char
  | .null => ['n', 'u', 'l', 'l']
  | .bool true => ['t', 'r', 'u', 'e']
  | .bool false => ['f', 'a', 'l', 's', 'e']
  | .number n => n.text
  | .string s => quoted s
  | .array items => '[' :: (compactItems items ++ [']'])
  | .object fields => '{' :: (compactFields fields ++ ['}'])

/-- Items with commas between them. -/
def compactItems : List Node → List Char
  | [] => []
  | [n] => compact n
  | n :: ns => compact n ++ ',' :: compactItems ns

/-- Fields with commas between them. -/
def compactFields : List (List Char × Node) → List Char
  | [] => []
  | [(k, n)] => quoted k ++ ':' :: compact n
  | (k, n) :: fs => quoted k ++ ':' :: (compact n ++ ',' :: compactFields fs)

end

/-- The break before an item at a level. -/
def lineBreak (level : Nat) : List Char := '\n' :: List.replicate (2 * level) ' '

mutual

/-- The text of a node with one item a line, the node itself standing at a level. -/
def prettyAt (level : Nat) : Node → List Char
  | .array [] => ['[', ']']
  | .array (n :: ns) =>
    '[' :: (lineBreak (level + 1) ++ prettyAt (level + 1) n ++ prettyItems level ns)
  | .object [] => ['{', '}']
  | .object ((k, n) :: fs) =>
    '{' :: (lineBreak (level + 1) ++ quoted k ++ [':', ' '] ++ prettyAt (level + 1) n ++
      prettyFields level fs)
  | .null => ['n', 'u', 'l', 'l']
  | .bool true => ['t', 'r', 'u', 'e']
  | .bool false => ['f', 'a', 'l', 's', 'e']
  | .number n => n.text
  | .string s => quoted s

/-- The items after the first, and the closing bracket. -/
def prettyItems (level : Nat) : List Node → List Char
  | [] => lineBreak level ++ [']']
  | n :: ns => ',' :: (lineBreak (level + 1) ++ prettyAt (level + 1) n ++ prettyItems level ns)

/-- The fields after the first, and the closing brace. -/
def prettyFields (level : Nat) : List (List Char × Node) → List Char
  | [] => lineBreak level ++ ['}']
  | (k, n) :: fs =>
    ',' :: (lineBreak (level + 1) ++ quoted k ++ [':', ' '] ++ prettyAt (level + 1) n ++
      prettyFields level fs)

end

/-- The text of a node with one item a line. -/
def pretty (n : Node) : List Char := prettyAt 0 n

/-- The text of a node in one of the two forms. -/
def text (n : Node) (indented : Bool) : String :=
  String.ofList (if indented then n.pretty else n.compact)

end Node

end CallContract.Json
