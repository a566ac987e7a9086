import CallContract.Text.Split
import CallContract.Text.Blank
import CallContract.Text.WordCharacter

/-!
# Tags

A documentation comment is free text followed by tags. A tag is a line that starts with `@`
and a keyword; the type in braces, the name, a default in brackets and the description follow.
Lines that carry no tag belong to the tag before them, or to the free text if there is none.
-/

namespace CallContract

/-- A tag. `source` is all that follows the keyword, and `isOptional` tells that the name was
in brackets. -/
structure Tag where
  keyword : String
  name : String
  type : String
  description : String
  default : Option String
  isOptional : Bool
  source : String
deriving DecidableEq, Repr

/-- A comment text as free text and tags. -/
structure CommentBlock where
  description : String
  tags : List Tag
deriving DecidableEq, Repr

namespace Tag

open Text

/-- A line of a comment without its decoration: blanks at both ends, and one star in front. -/
def undecorated (line : List Char) : List Char :=
  match trimStart line with
  | '*' :: s => trim s
  | s => trim s

/-- Whether a character starts and ends a stretch of quoted text. -/
def isQuote (c : Char) : Bool := c = '"' || c = '\x27' || c = '\x60'

/-- The text up to the bracket that closes the one just read, and the text behind it. Inside
are `depth` more open brackets, or a stretch of quoted text, in which brackets mean nothing. -/
def enclosed? (opener closer : Char) :
    (depth : Nat) → (quote : Option Char) → List Char → Option (List Char × List Char)
  | _, _, [] => none
  | depth, some q, c :: s =>
    (enclosed? opener closer depth (if c = q then none else some q) s).map
      fun p => (c :: p.1, p.2)
  | depth, none, c :: s =>
    if isQuote c then (enclosed? opener closer depth (some c) s).map fun p => (c :: p.1, p.2)
    else if c = opener then
      (enclosed? opener closer (depth + 1) none s).map fun p => (c :: p.1, p.2)
    else if c = closer then
      if depth = 0 then some ([], s)
      else (enclosed? opener closer (depth - 1) none s).map fun p => (c :: p.1, p.2)
    else (enclosed? opener closer depth none s).map fun p => (c :: p.1, p.2)

/-- The inside of the brackets that a text starts with, and the text behind them. -/
def bracketed? (opener closer : Char) : List Char → Option (List Char × List Char)
  | [] => none
  | c :: s => if c = opener then enclosed? opener closer 0 none s else none

/-- The type in braces that a text starts with, and the text behind it. -/
def typePart (s : List Char) : List Char × List Char :=
  match bracketed? '\x7b' '\x7d' s with
  | some (inside, rest) => (trim inside, trimStart rest)
  | none => ([], s)

/-- The name of a tag, its default, and whether brackets make it optional. -/
structure Naming where
  name : List Char
  default : Option (List Char)
  isOptional : Bool

/-- What brackets say: a name, and a default after an equals sign. -/
def Naming.ofBracketed (inside : List Char) : Naming :=
  match splitFirst '=' inside with
  | some (n, d) => ⟨trim n, some (trim d), true⟩
  | none => ⟨inside, none, true⟩

/-- The name that a text starts with, and the text behind it. An opening bracket that is never
closed gives no name and stays. -/
def namePart (s : List Char) : Naming × List Char :=
  if startsWith ['['] s then
    match bracketed? '[' ']' s with
    | some (inside, rest) => (.ofBracketed (trim inside), trimStart rest)
    | none => (⟨[], none, false⟩, s)
  else
    (⟨s.takeWhile (!isBlank ·), none, false⟩, trimStart (s.dropWhile (!isBlank ·)))

/-- A description without the dash that may precede it. -/
def descriptionPart (s : List Char) : List Char := trim ((afterStart? ['-', ' '] s).getD s)

/-- The tag with a keyword and what follows it. -/
def ofParts (keyword source : List Char) : Tag :=
  let (type, s) := typePart source
  let (naming, s) := namePart s
  { keyword := String.ofList keyword
    name := String.ofList naming.name
    type := String.ofList type
    description := String.ofList (descriptionPart s)
    default := naming.default.map String.ofList
    isOptional := naming.isOptional
    source := String.ofList source }

/-- Whether a character can stand in a keyword after its first letter. -/
def isKeywordChar (c : Char) : Bool := isWordChar c || c = '-'

/-- The tag that a line without decoration spells. -/
def ofLine? : List Char → Option Tag
  | '@' :: c :: s =>
    if c.isAlpha then
      some (ofParts (c :: s.takeWhile isKeywordChar) (trim (s.dropWhile isKeywordChar)))
    else none
  | _ => none

/-- Texts with a blank between them; empty ones are left out. -/
def spaced (parts : List (List Char)) : List Char := join [' '] (parts.filter (!·.isEmpty))

/-- A string continued by further lines. -/
def continued (s : String) (more : List (List Char)) : String :=
  String.ofList (spaced (s.toList :: more))

/-- A tag with the lines that follow it. -/
def extend (t : Tag) (more : List (List Char)) : Tag :=
  { t with description := continued t.description more, source := continued t.source more }

/-- Groups lines without decoration: those before the first tag, and the tags, each with the
lines that follow it. -/
def ofLines : List (List Char) → List (List Char) × List Tag
  | [] => ([], [])
  | line :: lines =>
    let (more, tags) := ofLines lines
    match ofLine? line with
    | some t => ([], t.extend more :: tags)
    | none => (line :: more, tags)

end Tag

/-- Reads a comment text. -/
def CommentBlock.ofText (text : List Char) : CommentBlock :=
  let (free, tags) := Tag.ofLines ((Text.lines text).map Tag.undecorated)
  ⟨String.ofList (Tag.spaced free), tags⟩

end CallContract
