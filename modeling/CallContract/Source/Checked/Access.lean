import CallContract.Source.Stretch

/-!
# Checked access

The readers of a source text, as they go over it in memory : by byte offsets and token numbers.
A `Checked` computation ends with a result or a refusal, and with neither (`none`) if it asks
for a byte or a token that is not there, cuts the text where no character starts or stops, takes
more from a number than there is, or goes on in a loop where it does not come further.
-/

namespace CallContract.Source

/-- A computation that ends with a result or a refusal, if none of its checks fails. -/
abbrev Checked (ε : Type) := ExceptT ε Option

namespace Checked

variable {ε ε' α : Type}

/-- The computation without checks. -/
def of (x : Except ε α) : Checked ε α := ExceptT.mk (some x)

/-- Ends with a refusal. -/
def refuse (e : ε) : Checked ε α := of (.error e)

/-- Goes on with what a computation ends with, a refusal too. -/
def attempt (x : Checked ε α) : Checked ε' (Except ε α) := ExceptT.mk (x.run.map .ok)

/-- The number `a` less `b`, which may not be more. -/
def subtract? (a b : Nat) : Option Nat := if b ≤ a then some (a - b) else none

/-- The place `next`, if less of `size` is left there than at `pos` : a loop that goes on at such
places only comes to an end. -/
def further? (size pos next : Nat) : Option {n : Nat // size - n < size - pos} :=
  if h : size - next < size - pos then some ⟨next, h⟩ else none

/-! ## Bytes -/

/-- The UTF-8 bytes of a character, each as the character with its number. -/
def bytesOfChar (c : Char) : List Char :=
  (String.utf8EncodeChar c).map fun b => Char.ofNat b.toNat

/-- The UTF-8 bytes of a text. -/
def bytesOf (text : List Char) : List Char := text.flatMap bytesOfChar

/-- The byte at an offset. -/
def byte? (text : List Char) (pos : Nat) : Option Char := (bytesOf text)[pos]?

/-- The text from an offset on. -/
def rest? (text : List Char) (pos : Nat) : Option (List Char) := stretch? text pos (width text)

end Checked

end CallContract.Source
