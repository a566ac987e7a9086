import CallContract.Address

/-!
# Pieces of a path

A path is cut at the points that are not within double quotes, and every double quote opens or
closes, wherever it stands. A text is `Whole` if it is not cut anywhere. What follows a point
behind a whole text is cut on its own if the quotes of the whole text are closed
(`pointPieces_of_closed`), and is drawn into the first piece if they are not
(`pointPieces_of_open`). A text that is not whole starts with one that is, and a point
(`whole_or_cut`).
-/

namespace CallContract.ArgPath

/-- Whether double quotes are open behind a character. -/
def quotedBehind (quoted : Bool) (c : Char) : Bool := if c = '"' then !quoted else quoted

/-- Whether double quotes are open behind a text. -/
def quotedAfter (quoted : Bool) (s : List Char) : Bool := s.foldl quotedBehind quoted

/-- A text that is one piece. -/
def Whole (quoted : Bool) (s : List Char) : Prop := pointPieces quoted s = [s]

@[simp] theorem quotedAfter_nil (b : Bool) : quotedAfter b [] = b := rfl

@[simp] theorem quotedAfter_cons (b : Bool) (c : Char) (s : List Char) :
    quotedAfter b (c :: s) = quotedAfter (quotedBehind b c) s := rfl

/-- Quotes are closed behind a text if they come in pairs. -/
theorem quotedAfter_eq (s : List Char) :
    ∀ b : Bool, quotedAfter b s = (b ^^ decide (s.count '"' % 2 = 1)) := by
  induction s with
  | nil => simp
  | cons c s ih =>
    intro b
    rw [quotedAfter_cons, ih, List.count_cons, quotedBehind]
    by_cases hc : c = '"'
    · have hparity : decide ((s.count '"' + 1) % 2 = 1) = !decide (s.count '"' % 2 = 1) := by
        rw [← decide_not, decide_eq_decide]
        omega
      simp [hc, hparity]
    · simp [hc]

theorem quotedAfter_false_iff (s : List Char) :
    quotedAfter false s = false ↔ s.count '"' % 2 = 0 := by
  simp [quotedAfter_eq]

/-! ## Cutting -/

theorem pointPieces_point (s : List Char) :
    pointPieces false ('.' :: s) = [] :: pointPieces false s := rfl

/-- A character that does not cut belongs to the first piece. -/
theorem pointPieces_cons {b : Bool} {c : Char} {s p : List Char} {ps : List (List Char)}
    (hc : ¬(c = '.' ∧ b = false)) (h : pointPieces (quotedBehind b c) s = p :: ps) :
    pointPieces b (c :: s) = (c :: p) :: ps := by
  rw [pointPieces, if_neg hc]
  rw [quotedBehind] at h
  rw [h]

theorem pointPieces_ne_nil (s : List Char) : ∀ b : Bool, pointPieces b s ≠ [] := by
  induction s with
  | nil => exact fun _ => List.cons_ne_nil _ _
  | cons c s ih =>
    intro b
    by_cases hc : c = '.' ∧ b = false
    · obtain ⟨rfl, rfl⟩ := hc
      exact List.cons_ne_nil _ _
    · obtain ⟨p, ps, h⟩ := List.exists_cons_of_ne_nil (ih (quotedBehind b c))
      rw [pointPieces_cons hc h]
      exact List.cons_ne_nil _ _

theorem whole_nil (b : Bool) : Whole b [] := rfl

theorem whole_cons_iff {b : Bool} {c : Char} {s : List Char} :
    Whole b (c :: s) ↔ ¬(c = '.' ∧ b = false) ∧ Whole (quotedBehind b c) s := by
  by_cases hc : c = '.' ∧ b = false
  · obtain ⟨rfl, rfl⟩ := hc
    simp [Whole, pointPieces_point]
  · obtain ⟨p, ps, h⟩ := List.exists_cons_of_ne_nil (pointPieces_ne_nil s (quotedBehind b c))
    simp [Whole, pointPieces_cons hc h, h, hc]

/-- Without a point outside quotes nothing is cut. -/
theorem whole_of_not_mem {s : List Char} (h : '.' ∉ s) : ∀ b : Bool, Whole b s := by
  induction s with
  | nil => exact whole_nil
  | cons c s ih =>
    intro b
    rw [List.mem_cons, not_or] at h
    exact whole_cons_iff.mpr ⟨fun hc => h.1 hc.1.symm, ih h.2 _⟩

theorem whole_append {s t : List Char} :
    ∀ {b : Bool}, Whole b s → Whole (quotedAfter b s) t → Whole b (s ++ t) := by
  induction s with
  | nil => exact fun _ ht => ht
  | cons c s ih =>
    intro b hs ht
    obtain ⟨hc, hs⟩ := whole_cons_iff.mp hs
    exact whole_cons_iff.mpr ⟨hc, ih hs ht⟩

/-- Within quotes nothing is cut. -/
theorem whole_quoted {s : List Char} (h : '"' ∉ s) : Whole false ('"' :: (s ++ ['"'])) := by
  have hinside : Whole true s := by
    induction s with
    | nil => exact whole_nil true
    | cons c s ih =>
      rw [List.mem_cons, not_or] at h
      refine whole_cons_iff.mpr ⟨by simp, ?_⟩
      rw [quotedBehind, if_neg (Ne.symm h.1)]
      exact ih h.2
  exact whole_cons_iff.mpr ⟨by decide, whole_append hinside (whole_of_not_mem (by simp) _)⟩

/-- Behind closed quotes a point cuts. -/
theorem pointPieces_of_closed {a : List Char} (t : List Char) :
    ∀ {b : Bool}, Whole b a → quotedAfter b a = false →
      pointPieces b (a ++ '.' :: t) = a :: pointPieces false t := by
  induction a with
  | nil =>
    intro b _ hb
    rw [quotedAfter_nil] at hb
    rw [hb, List.nil_append, pointPieces_point]
  | cons c a ih =>
    intro b ha hb
    obtain ⟨hc, ha⟩ := whole_cons_iff.mp ha
    exact pointPieces_cons hc (ih ha hb)

/-- Behind open quotes a point is part of the first piece. -/
theorem pointPieces_of_open {a : List Char} (t : List Char) :
    ∀ {b : Bool}, Whole b a → quotedAfter b a = true →
      ∃ u ps, pointPieces b (a ++ '.' :: t) = (a ++ '.' :: u) :: ps := by
  induction a with
  | nil =>
    intro b _ hb
    rw [quotedAfter_nil] at hb
    obtain ⟨u, ps, h⟩ := List.exists_cons_of_ne_nil (pointPieces_ne_nil t (quotedBehind b '.'))
    exact ⟨u, ps, pointPieces_cons (by simp [hb]) h⟩
  | cons c a ih =>
    intro b ha hb
    obtain ⟨hc, ha⟩ := whole_cons_iff.mp ha
    obtain ⟨u, ps, h⟩ := ih ha hb
    exact ⟨u, ps, pointPieces_cons hc h⟩

/-- A text is whole, or is cut behind a whole part of it. -/
theorem whole_or_cut (s : List Char) : ∀ b : Bool, Whole b s ∨
    ∃ a t, s = a ++ '.' :: t ∧ Whole b a ∧ quotedAfter b a = false := by
  induction s with
  | nil => exact fun b => Or.inl (whole_nil b)
  | cons c s ih =>
    intro b
    by_cases hc : c = '.' ∧ b = false
    · obtain ⟨rfl, rfl⟩ := hc
      exact Or.inr ⟨[], s, rfl, whole_nil false, rfl⟩
    · rcases ih (quotedBehind b c) with hs | ⟨a, t, rfl, ha, hb⟩
      · exact Or.inl (whole_cons_iff.mpr ⟨hc, hs⟩)
      · exact Or.inr ⟨c :: a, t, rfl, whole_cons_iff.mpr ⟨hc, ha⟩, hb⟩

end CallContract.ArgPath
