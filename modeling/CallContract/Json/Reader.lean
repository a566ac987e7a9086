import CallContract.Json.Value

/-!
# Reading JSON text

`Node.read?` reads the one node that a text consists of, blanks around its parts apart;
`Value.read?` reads the value of a text, which may nest 127 deep. Every step returns a rest
that is strictly shorter than its input, which is why reading ends.
-/

namespace CallContract.Json

/-- What is left of a text after something was read off it. -/
abbrev Rest (s : List Char) := { r : List Char // r.length < s.length }

/-- The blanks of JSON text. -/
def isSpace (c : Char) : Bool := c = ' ' || c = '\n' || c = '\t' || c = '\r'

/-- The text without the blanks it starts with. -/
def skipSpace (s : List Char) : List Char := s.dropWhile isSpace

theorem length_skipSpace_le (s : List Char) : (skipSpace s).length ≤ s.length :=
  (List.dropWhile_sublist _).length_le

/-- What is shorter than the text after its blanks is shorter than the text. -/
theorem length_lt_of_skipSpace {s t r : List Char} (h : skipSpace s = t)
    (hr : r.length < t.length) : r.length < s.length := by
  have := length_skipSpace_le s
  rw [h] at this
  omega

/-- Cuts the inside of a quoted string, whose opening quote is gone, off the start of a text.
Escapes have to be well formed and control characters are refused. -/
def scanQuoted : List Char → Option (List Char × List Char)
  | [] => none
  | '"' :: s => some ([], s)
  | '\\' :: 'u' :: a :: b :: c :: d :: s =>
    match hexUnit? a b c d with
    | none => none
    | some _ => (scanQuoted s).map fun p => ('\\' :: 'u' :: a :: b :: c :: d :: p.1, p.2)
  | '\\' :: e :: s =>
    match shortEscape? e with
    | none => none
    | some _ => (scanQuoted s).map fun p => ('\\' :: e :: p.1, p.2)
  | c :: s =>
    if c = '\\' ∨ c.toNat < 0x20 then none
    else (scanQuoted s).map fun p => (c :: p.1, p.2)

/-- The closing quote is read too. -/
theorem length_of_scanQuoted {s : List Char} {p : List Char × List Char}
    (h : scanQuoted s = some p) : p.2.length < s.length := by
  fun_induction scanQuoted s generalizing p with
  | case1 => cases h
  | case2 s => cases h; simp
  | case3 => cases h
  | case4 a b c d s _ _ ih =>
    obtain ⟨q, hq, rfl⟩ := Option.map_eq_some_iff.mp h
    have := ih hq
    simp only [List.length_cons]
    omega
  | case5 => cases h
  | case6 e s _ _ _ ih =>
    obtain ⟨q, hq, rfl⟩ := Option.map_eq_some_iff.mp h
    have := ih hq
    simp only [List.length_cons]
    omega
  | case7 => cases h
  | case8 c s _ _ _ _ ih =>
    obtain ⟨q, hq, rfl⟩ := Option.map_eq_some_iff.mp h
    have := ih hq
    simp only [List.length_cons]
    omega

namespace Node

mutual

/-- Reads a node off the start of a text. -/
def scan? (s : List Char) : Option (Node × Rest s) :=
  match h : skipSpace s with
  | 'n' :: 'u' :: 'l' :: 'l' :: r =>
    some (.null, ⟨r, length_lt_of_skipSpace h (by simp only [List.length_cons]; omega)⟩)
  | 't' :: 'r' :: 'u' :: 'e' :: r =>
    some (.bool true, ⟨r, length_lt_of_skipSpace h (by simp only [List.length_cons]; omega)⟩)
  | 'f' :: 'a' :: 'l' :: 's' :: 'e' :: r =>
    some (.bool false, ⟨r, length_lt_of_skipSpace h (by simp only [List.length_cons]; omega)⟩)
  | '"' :: r =>
    match hq : scanQuoted r with
    | none => none
    | some (q, t) =>
      some (.string q, ⟨t, length_lt_of_skipSpace h (by
        have := length_of_scanQuoted hq
        simp only [List.length_cons] at this ⊢
        omega)⟩)
  | '[' :: r =>
    have hr : r.length < s.length := length_lt_of_skipSpace h (by simp)
    match hc : skipSpace r with
    | ']' :: t =>
      some (.array [], ⟨t, by have := length_lt_of_skipSpace hc (r := t) (by simp); omega⟩)
    | _ =>
      match scanItems? r with
      | none => none
      | some (ns, ⟨t, ht⟩) => some (.array ns, ⟨t, by omega⟩)
  | '{' :: r =>
    have hr : r.length < s.length := length_lt_of_skipSpace h (by simp)
    match hc : skipSpace r with
    | '}' :: t =>
      some (.object [], ⟨t, by have := length_lt_of_skipSpace hc (r := t) (by simp); omega⟩)
    | _ =>
      match scanFields? r with
      | none => none
      | some (fs, ⟨t, ht⟩) => some (.object fs, ⟨t, by omega⟩)
  | t =>
    match hn : Numeral.scan? t with
    | none => none
    | some (n, r) => some (.number n, ⟨r, length_lt_of_skipSpace h (Numeral.length_of_scan? hn)⟩)
termination_by 2 * s.length

/-- Reads items and the closing bracket. -/
def scanItems? (s : List Char) : Option (List Node × Rest s) :=
  match scan? s with
  | none => none
  | some (n, ⟨r, hr⟩) =>
    match h : skipSpace r with
    | ',' :: t =>
      have ht : t.length < r.length := length_lt_of_skipSpace h (by simp)
      match scanItems? t with
      | none => none
      | some (ns, ⟨u, hu⟩) => some (n :: ns, ⟨u, by omega⟩)
    | ']' :: t =>
      some ([n], ⟨t, by have := length_lt_of_skipSpace h (r := t) (by simp); omega⟩)
    | _ => none
termination_by 2 * s.length + 1

/-- Reads fields and the closing brace. -/
def scanFields? (s : List Char) : Option (List (List Char × Node) × Rest s) :=
  match hk : skipSpace s with
  | '"' :: k =>
    match hq : scanQuoted k with
    | none => none
    | some (key, r) =>
      match hc : skipSpace r with
      | ':' :: v =>
        have hv : v.length < s.length := by
          have h₁ := length_lt_of_skipSpace hc (r := v) (by simp)
          have h₂ := length_of_scanQuoted hq
          have h₃ := length_lt_of_skipSpace hk (r := k) (by simp)
          simp only at h₂
          omega
        match scan? v with
        | none => none
        | some (n, ⟨r, hr⟩) =>
          match h : skipSpace r with
          | ',' :: t =>
            have ht : t.length < r.length := length_lt_of_skipSpace h (by simp)
            match scanFields? t with
            | none => none
            | some (fs, ⟨u, hu⟩) => some ((key, n) :: fs, ⟨u, by omega⟩)
          | '}' :: t =>
            some ([(key, n)], ⟨t, by have := length_lt_of_skipSpace h (r := t) (by simp); omega⟩)
          | _ => none
      | _ => none
  | _ => none
termination_by 2 * s.length + 1

end

/-- Reads the node that a text consists of. -/
def read? (s : List Char) : Option Node :=
  match scan? s with
  | none => none
  | some (n, r) => if skipSpace r.1 = [] then some n else none

end Node

namespace Value

/-- How deep arrays and objects may nest in a text. -/
def maxDepth : Nat := 127

/-- Reads the value of a text. -/
def read? (s : List Char) : Option Value := (Node.read? s).bind (ofNode? maxDepth)

end Value

end CallContract.Json
