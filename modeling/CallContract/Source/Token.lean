import CallContract.Source.Error

/-!
# Tokens

What source text is cut into: tokens and comments, each with the byte offsets at which it
starts and stops. Offsets count UTF-8 bytes (`width`).
-/

namespace CallContract.Source

/-- How many bytes a text takes in UTF-8. -/
def width : List Char → Nat
  | [] => 0
  | c :: s => c.utf8Size + width s

@[simp] theorem width_nil : width [] = 0 := rfl

@[simp] theorem width_cons (c : Char) (s : List Char) : width (c :: s) = c.utf8Size + width s :=
  rfl

@[simp] theorem width_append (s t : List Char) : width (s ++ t) = width s + width t := by
  induction s with
  | nil => simp
  | cons c s ih => simp [ih, Nat.add_assoc]

/-- Punctuation with a role in declarations. -/
inductive Mark where
  | parenOpen | parenClose | braceOpen | braceClose | bracketOpen | bracketClose
  | comma | semicolon | colon | dot | ellipsis | assign | arrow | nullish | star | minus | plus
deriving DecidableEq, Repr

namespace Mark

/-- How a mark is spelled. -/
def spelling : Mark → String
  | parenOpen => "("
  | parenClose => ")"
  | braceOpen => "\x7b"
  | braceClose => "\x7d"
  | bracketOpen => "["
  | bracketClose => "]"
  | comma => ","
  | semicolon => ";"
  | colon => ":"
  | dot => "."
  | ellipsis => "..."
  | assign => "="
  | arrow => "=>"
  | nullish => "??"
  | star => "*"
  | minus => "-"
  | plus => "+"

/-- All marks. -/
def all : List Mark :=
  [parenOpen, parenClose, braceOpen, braceClose, bracketOpen, bracketClose, comma, semicolon,
    colon, dot, ellipsis, assign, arrow, nullish, star, minus, plus]

/-- The mark with a spelling. -/
def ofSpelling? (s : String) : Option Mark := all.find? fun m => m.spelling == s

/-- Whether a mark opens a bracket. -/
def opens : Mark → Bool
  | parenOpen | braceOpen | bracketOpen => true
  | _ => false

/-- Whether a mark closes a bracket. -/
def closes : Mark → Bool
  | parenClose | braceClose | bracketClose => true
  | _ => false

end Mark

/-- What a token is. A number keeps its spelling, a string is decoded, and a template keeps
its body unless it has substitutions. -/
inductive Lexeme where
  | word (name : String)
  | number (spelling : String)
  | string (value : String)
  | template (body : Option String)
  | regex
  | mark (m : Mark)
  | operator (spelling : String)
deriving DecidableEq, Repr

namespace Lexeme

/-- Whether a lexeme opens a bracket. -/
def opens : Lexeme → Bool
  | mark m => m.opens
  | _ => false

/-- Whether a lexeme closes a bracket. -/
def closes : Lexeme → Bool
  | mark m => m.closes
  | _ => false

end Lexeme

/-- A token: what it is, where it starts and stops, and whether a line break separates it
from the token before. -/
structure Token where
  lexeme : Lexeme
  start : Nat
  stop : Nat
  afterBreak : Bool
deriving DecidableEq, Repr

/-- A comment with the text between its delimiters. -/
structure Comment where
  isBlock : Bool
  text : String
  start : Nat
  stop : Nat
deriving DecidableEq, Repr

/-- A source text cut up: its tokens, its comments, and its size in bytes, where the text
ends. -/
structure Lexed where
  tokens : List Token
  comments : List Comment
  size : Nat
deriving DecidableEq, Repr

end CallContract.Source
