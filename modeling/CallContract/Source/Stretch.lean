import CallContract.Source.Token

/-!
# Stretches of text

`stretch?` gives the text between two byte offsets. It fails unless both are character
boundaries in order; between the widths of two initial parts it gives what lies between them
(`stretch?_width`).
-/

namespace CallContract.Source

/-- The text without its first `n` bytes, if a character ends there. -/
def dropBytes : Nat → List Char → Option (List Char)
  | 0, s => some s
  | _ + 1, [] => none
  | n + 1, c :: s => if c.utf8Size ≤ n + 1 then dropBytes (n + 1 - c.utf8Size) s else none

/-- The first `n` bytes of the text, if a character ends there. -/
def takeBytes : Nat → List Char → Option (List Char)
  | 0, _ => some []
  | _ + 1, [] => none
  | n + 1, c :: s =>
    if c.utf8Size ≤ n + 1 then (takeBytes (n + 1 - c.utf8Size) s).map (c :: ·) else none

/-- The text between two byte offsets. -/
def stretch? (text : List Char) (start stop : Nat) : Option (List Char) :=
  if start ≤ stop then (dropBytes start text).bind (takeBytes (stop - start)) else none

theorem dropBytes_width (s t : List Char) : dropBytes (width s) (s ++ t) = some t := by
  induction s with
  | nil => simp [dropBytes]
  | cons c s ih =>
    have hc := Char.utf8Size_pos c
    obtain ⟨n, hn⟩ : ∃ n, width (c :: s) = n + 1 := ⟨width (c :: s) - 1, by simp; omega⟩
    rw [hn, List.cons_append, dropBytes, if_pos (by simp at hn; omega)]
    rw [show n + 1 - c.utf8Size = width s by simp at hn; omega, ih]

theorem takeBytes_width (s t : List Char) : takeBytes (width s) (s ++ t) = some s := by
  induction s with
  | nil => simp [takeBytes]
  | cons c s ih =>
    have hc := Char.utf8Size_pos c
    obtain ⟨n, hn⟩ : ∃ n, width (c :: s) = n + 1 := ⟨width (c :: s) - 1, by simp; omega⟩
    rw [hn, List.cons_append, takeBytes, if_pos (by simp at hn; omega)]
    rw [show n + 1 - c.utf8Size = width s by simp at hn; omega, ih]
    rfl

/-- Between the widths of two initial parts lies what the second adds to the first. -/
theorem stretch?_width (s t u : List Char) :
    stretch? (s ++ (t ++ u)) (width s) (width s + width t) = some t := by
  simp [stretch?, dropBytes_width, takeBytes_width]

end CallContract.Source
