import CallContract.Json.Quoted
import CallContract.Text.Integer

/-!
# String literals

The inside of a quoted string literal. `escape?` reads what follows a backslash and
`stringBody` reads up to the closing quote; both say how many characters they took. The
halves of a surrogate pair are joined, and a half without its partner becomes U+FFFD.
-/

namespace CallContract.Source

-- Powers of numbers are the built-in ones, whatever else is imported.
attribute [local instance (high)] instPowNat

open CallContract.Json (isHighHalf isLowHalf joinHalves)

/-- The character with a code point. -/
def charOf? (n : Nat) : Option Char := if n.isValidChar then some (Char.ofNat n) else none

/-- The character that stands for what cannot be decoded. -/
def replacementChar : Char := '\ufffd'

/-- The number that hexadecimal digits spell. A plus sign may come first. -/
def hexValue? (digits : List Char) : Option Nat := Text.unsigned? 16 (2 ^ (32 : Nat)) digits

/-- Reads what follows `\u`: a code point in braces, or four digits and, for the first half of
a surrogate pair, a second escape. Without a closing brace the digits go on to the end of the
text. -/
def unicodeEscape? : List Char → Option (Char × Nat)
  | '{' :: s =>
    let digits := s.takeWhile (· ≠ '}')
    let closed := if digits.length < s.length then 1 else 0
    ((hexValue? digits).bind charOf?).map fun c => (c, 1 + digits.length + closed)
  | a :: b :: c :: d :: s =>
    match hexValue? [a, b, c, d] with
    | none => none
    | some high =>
      if isHighHalf high then
        match s with
        | '\\' :: 'u' :: r =>
          match hexValue? (r.take 4) with
          | none => none
          | some low =>
            if r.length < 4 then none
            else if isLowHalf low then some (joinHalves high low, 10)
            else some (replacementChar, 4)
        | _ => some (replacementChar, 4)
      else some ((charOf? high).getD replacementChar, 4)
  | _ => none

/-- Reads what follows `\x`: two hexadecimal digits. -/
def hexEscape? : List Char → Option (Char × Nat)
  | a :: b :: _ => ((hexValue? [a, b]).bind charOf?).map fun c => (c, 2)
  | _ => none

/-- Reads what follows a backslash: the text that the escape stands for, and how many
characters it takes. A backslash before a line break stands for nothing, and before any other
character that is not an escape letter for that character. -/
def escape? : List Char → Option (List Char × Nat)
  | [] => none
  | e :: s =>
    match e with
    | 'n' => some (['\n'], 1)
    | 't' => some (['\t'], 1)
    | 'r' => some (['\r'], 1)
    | '0' => some (['\x00'], 1)
    | 'b' => some (['\x08'], 1)
    | 'f' => some (['\x0c'], 1)
    | 'v' => some (['\x0b'], 1)
    | 'x' => (hexEscape? s).map fun p => ([p.1], p.2 + 1)
    | 'u' => (unicodeEscape? s).map fun p => ([p.1], p.2 + 1)
    | '\n' => some ([], 1)
    | c => some ([c], 1)

end CallContract.Source
