import CallContract.Text.Integer

/-!
# Quoted text

The inside of a quoted JSON string. `escape` writes a quote, a backslash and the control
characters as escapes, five of them in a short form, and all else as it is; `unescape?` reads
every escape of the format, joining the two halves of a surrogate pair, and refuses a half on
its own. Reading gives back what was written (`unescape?_escape`).
-/

namespace CallContract.Json

/-- A hexadecimal digit in lower case. -/
def hexDigit (n : Nat) : Char :=
  if n < 10 then Char.ofNat (48 + n) else Char.ofNat (87 + n)

/-- How one character is written between quotes. -/
def escapeChar (c : Char) : List Char :=
  if c = '"' then ['\\', '"']
  else if c = '\\' then ['\\', '\\']
  else if c = '\x08' then ['\\', 'b']
  else if c = '\x0c' then ['\\', 'f']
  else if c = '\n' then ['\\', 'n']
  else if c = '\r' then ['\\', 'r']
  else if c = '\t' then ['\\', 't']
  else if c.toNat < 0x20 then
    ['\\', 'u', '0', '0', hexDigit (c.toNat / 16), hexDigit (c.toNat % 16)]
  else [c]

/-- How a text is written between quotes. -/
def escape (s : List Char) : List Char := s.flatMap escapeChar

/-- The 16-bit unit that four hexadecimal digits spell. -/
def hexUnit? (a b c d : Char) : Option Nat := Text.natural? 16 [a, b, c, d]

/-- The character that a letter after a backslash stands for. -/
def shortEscape? : Char → Option Char
  | '"' => some '"'
  | '\\' => some '\\'
  | '/' => some '/'
  | 'b' => some '\x08'
  | 'f' => some '\x0c'
  | 'n' => some '\n'
  | 'r' => some '\r'
  | 't' => some '\t'
  | _ => none

/-- Whether a 16-bit unit is the first half of a surrogate pair. -/
def isHighHalf (u : Nat) : Bool := 0xD800 ≤ u && u < 0xDC00

/-- Whether a 16-bit unit is the second half of a surrogate pair. -/
def isLowHalf (u : Nat) : Bool := 0xDC00 ≤ u && u < 0xE000

/-- The character of a surrogate pair. -/
def joinHalves (high low : Nat) : Char :=
  Char.ofNat (0x10000 + (high - 0xD800) * 0x400 + (low - 0xDC00))

/-- Reads the inside of a quoted string; `none` for a control character, an unknown escape
or half a surrogate pair. -/
def unescape? : List Char → Option (List Char)
  | [] => some []
  | '\\' :: 'u' :: a :: b :: c :: d :: s =>
    match hexUnit? a b c d with
    | none => none
    | some u =>
      if isHighHalf u then
        match s with
        | '\\' :: 'u' :: a' :: b' :: c' :: d' :: r =>
          match hexUnit? a' b' c' d' with
          | none => none
          | some v => if isLowHalf v then (unescape? r).map (joinHalves u v :: ·) else none
        | _ => none
      else if isLowHalf u then none
      else (unescape? s).map (Char.ofNat u :: ·)
  | '\\' :: e :: s =>
    match shortEscape? e with
    | none => none
    | some c => (unescape? s).map (c :: ·)
  | c :: s => if c = '\\' ∨ c.toNat < 0x20 then none else (unescape? s).map (c :: ·)

example : escape ['a', '"', '\n', '\x01', 'é'] = "a\\\"\\n\\u0001é".toList := by decide +kernel

theorem hexUnit?_control : ∀ n : Fin 32,
    hexUnit? '0' '0' (hexDigit (n.val / 16)) (hexDigit (n.val % 16)) = some n.val := by
  decide

/-- One escaped character is read back, whatever follows it. -/
theorem unescape?_escapeChar (c : Char) (r : List Char) :
    unescape? (escapeChar c ++ r) = (unescape? r).map (c :: ·) := by
  unfold escapeChar
  split
  · rename_i h; subst h; rfl
  split
  · rename_i h; subst h; rfl
  split
  · rename_i h; subst h; rfl
  split
  · rename_i h; subst h; rfl
  split
  · rename_i h; subst h; rfl
  split
  · rename_i h; subst h; rfl
  split
  · rename_i h; subst h; rfl
  split
  · rename_i h
    have hu := hexUnit?_control ⟨c.toNat, h⟩
    simp only at hu
    rw [List.cons_append, List.cons_append, List.cons_append, List.cons_append,
      List.cons_append, List.cons_append, List.nil_append]
    rw [unescape?, hu]
    have h₁ : isHighHalf c.toNat = false := by simp [isHighHalf]; omega
    have h₂ : isLowHalf c.toNat = false := by simp [isLowHalf]; omega
    simp only [h₁, h₂, Bool.false_eq_true, if_false, Char.ofNat_toNat]
  · rename_i h₁ h₂ h₃ h₄ h₅ h₆ h₇ h₈
    rw [List.cons_append, List.nil_append, unescape?, if_neg (by simp [h₂]; omega)]
    · intro a b c' d s' h; exact fun _ => h₂ (by simpa using h)
    · intro e s' h; exact fun _ => h₂ (by simpa using h)

/-- Reading gives back what was written. -/
theorem unescape?_escape (s : List Char) : unescape? (escape s) = some s := by
  induction s with
  | nil => rfl
  | cons c s ih =>
    rw [escape, List.flatMap_cons, unescape?_escapeChar]
    rw [escape] at ih
    rw [ih]
    rfl

end CallContract.Json
