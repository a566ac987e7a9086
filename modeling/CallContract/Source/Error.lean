/-!
# Failures of reading source text

Why a source text is refused, and at which byte. The cause `badSlice` would mean that a stretch
of the text was asked for whose ends are not character boundaries in order; no text leads to
one, and it is kept as a value so that this can be said.
-/

namespace CallContract.Source

/-- Why a source text is refused. -/
inductive Cause where
  | openComment
  | openString
  | badEscape
  | openTemplate
  | openSubstitution
  | openRegex
  | strayCharacter (c : Char)
  | openBracket
  | strayBracket
  | badSlice
deriving DecidableEq, Repr

namespace Cause

/-- The wording of a cause. -/
def message : Cause → String
  | openComment => "unterminated block comment"
  | openString => "unterminated string literal"
  | badEscape => "invalid escape sequence"
  | openTemplate => "unterminated template literal"
  | openSubstitution => "unterminated template substitution"
  | openRegex => "unterminated regular expression"
  | strayCharacter c => "unexpected character '" ++ String.singleton c ++ "'"
  | openBracket => "unbalanced brackets at end of input"
  | strayBracket => "unexpected closing bracket"
  | badSlice => "stretch of text outside character boundaries"

end Cause

/-- A refused source text: the byte offset and the cause. -/
structure Error where
  pos : Nat
  cause : Cause
deriving DecidableEq, Repr

/-- The wording of a refusal. -/
def Error.message (e : Error) : String :=
  "source error at " ++ toString e.pos ++ ": " ++ e.cause.message

end CallContract.Source
