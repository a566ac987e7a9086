/-!
# Cutting text

Lines, pieces between separators, and cuts at the first or the last separator. Joining the
pieces with the separator gives the text back (`join_pieces`).
-/

namespace CallContract.Text

/-- The pieces of `s` between the occurrences of `sep`; there is always one. -/
def pieces (sep : Char) : List Char → List (List Char)
  | [] => [[]]
  | c :: s =>
    if c = sep then [] :: pieces sep s
    else match pieces sep s with
      | [] => [[c]]
      | p :: ps => (c :: p) :: ps

/-- The texts of `ps` with `sep` between them. -/
def join (sep : List Char) : List (List Char) → List Char
  | [] => []
  | [p] => p
  | p :: ps => p ++ sep ++ join sep ps

theorem pieces_ne_nil (sep : Char) (s : List Char) : pieces sep s ≠ [] := by
  cases s with
  | nil => simp [pieces]
  | cons c s =>
    unfold pieces
    split
    · simp
    · split <;> simp

theorem join_pieces (sep : Char) (s : List Char) : join [sep] (pieces sep s) = s := by
  induction s with
  | nil => rfl
  | cons c s ih =>
    unfold pieces
    split
    · rename_i h
      cases hp : pieces sep s with
      | nil => exact absurd hp (pieces_ne_nil sep s)
      | cons p ps => rw [hp] at ih; simp [join, ih, h]
    · cases hp : pieces sep s with
      | nil => exact absurd hp (pieces_ne_nil sep s)
      | cons p ps =>
        rw [hp] at ih
        cases ps with
        | nil => simpa [join] using ih
        | cons q qs => simpa [join] using ih

/-- The text before and after the first `sep`. -/
def splitFirst (sep : Char) : List Char → Option (List Char × List Char)
  | [] => none
  | c :: s => if c = sep then some ([], s) else (splitFirst sep s).map fun p => (c :: p.1, p.2)

/-- The text before and after the last `sep`. -/
def splitLast (sep : Char) : List Char → Option (List Char × List Char)
  | [] => none
  | c :: s =>
    match splitLast sep s with
    | some (a, b) => some (c :: a, b)
    | none => if c = sep then some ([], s) else none

/-- Drops one carriage return at the end of a line. -/
def dropReturn : List Char → List Char
  | [] => []
  | ['\r'] => []
  | c :: s => c :: dropReturn s

/-- The lines of a text. Each ends at a line feed, of which a carriage return right before
it is part; what follows the last line feed is a line only if it is not empty. A last line
without a line feed keeps its carriage return. -/
def lines : List Char → List (List Char)
  | s =>
    let ps := pieces '\n' s
    let last := ps.getLast?.getD []
    ps.dropLast.map dropReturn ++ if last.isEmpty then [] else [last]

/-- `p` is how `s` starts; gives what follows it. -/
def afterStart? : (p s : List Char) → Option (List Char)
  | [], s => some s
  | _ :: _, [] => none
  | a :: p, c :: s => if a = c then afterStart? p s else none

/-- Whether `s` starts with `p`. -/
def startsWith (p s : List Char) : Bool := (afterStart? p s).isSome

/-- `p` is how `s` ends; gives what precedes it. -/
def beforeEnd? (p s : List Char) : Option (List Char) :=
  (afterStart? p.reverse s.reverse).map List.reverse

/-- Whether `s` ends with `p`. -/
def endsWith (p s : List Char) : Bool := (beforeEnd? p s).isSome

theorem eq_append_of_afterStart? {p s r : List Char} (h : afterStart? p s = some r) :
    s = p ++ r := by
  induction p generalizing s with
  | nil => simpa [afterStart?] using h
  | cons a p ih =>
    cases s with
    | nil => simp [afterStart?] at h
    | cons c s =>
      simp only [afterStart?] at h
      split at h
      · rename_i hac
        rw [hac, ih h, List.cons_append]
      · cases h

theorem eq_append_of_beforeEnd? {p s r : List Char} (h : beforeEnd? p s = some r) :
    s = r ++ p := by
  obtain ⟨t, ht, rfl⟩ := Option.map_eq_some_iff.mp h
  have := congrArg List.reverse (eq_append_of_afterStart? ht)
  simpa using this

/-- A piece is shorter than a text in which the separator occurs. -/
theorem length_lt_of_mem_pieces {sep : Char} {s p : List Char} (hs : sep ∈ s)
    (hp : p ∈ pieces sep s) : p.length < s.length := by
  have key : ∀ (s p : List Char), p ∈ pieces sep s →
      p.length ≤ s.length ∧ (sep ∈ s → p.length < s.length) := by
    intro s
    induction s with
    | nil => simp [pieces]
    | cons c s ih =>
      intro p hp
      unfold pieces at hp
      split at hp
      · rcases List.mem_cons.mp hp with rfl | hp
        · simp
        · have := (ih p hp).1
          simp only [List.length_cons]
          omega
      · rename_i hc
        have hmem : sep ∈ c :: s → sep ∈ s := fun h =>
          (List.mem_cons.mp h).resolve_left fun e => hc e.symm
        cases hps : pieces sep s with
        | nil => exact absurd hps (pieces_ne_nil sep s)
        | cons q qs =>
          rw [hps] at hp ih
          rcases List.mem_cons.mp hp with rfl | hp
          · have := ih q (List.mem_cons_self ..)
            simp only [List.length_cons]
            exact ⟨by omega, fun h => by have := this.2 (hmem h); omega⟩
          · have := ih p (List.mem_cons_of_mem _ hp)
            simp only [List.length_cons]
            exact ⟨by omega, fun h => by have := this.2 (hmem h); omega⟩
  exact (key s p hp).2 hs

end CallContract.Text
