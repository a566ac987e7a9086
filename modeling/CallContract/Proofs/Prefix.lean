import Mathlib.Data.List.Pairwise
import Mathlib.Data.List.TakeWhile

/-!
# Initial parts of lists

What `takeWhile` and `dropWhile` cut off. On a list along which a condition, once false, stays
false, the initial part that satisfies it is all that does (`takeWhile_eq_filter`).
-/

namespace CallContract

variable {α : Type} {p q : α → Bool}

theorem take_length_takeWhile (p : α → Bool) (l : List α) :
    l.take (l.takeWhile p).length = l.takeWhile p :=
  (List.prefix_iff_eq_take.mp (List.takeWhile_prefix p)).symm

theorem drop_length_takeWhile (p : α → Bool) (l : List α) :
    l.drop (l.takeWhile p).length = l.dropWhile p := by
  have h : ((l.takeWhile p) ++ (l.dropWhile p)).drop (l.takeWhile p).length = l.dropWhile p :=
    List.drop_left
  rwa [List.takeWhile_append_dropWhile] at h

/-- What follows an element of a list is shorter than the list. -/
theorem length_lt_of_drop_eq_cons {l r : List α} {n : Nat} {a : α} (h : l.drop n = a :: r) :
    r.length < l.length := by
  have hlen := congrArg List.length h
  rw [List.length_drop, List.length_cons] at hlen
  omega

/-- Having dropped some of the initial part, the rest of it is still there. -/
theorem length_takeWhile_eq_add : ∀ {l : List α} {n : Nat}, n ≤ (l.takeWhile p).length →
    (l.takeWhile p).length = n + ((l.drop n).takeWhile p).length
  | _, 0, _ => by simp
  | [], n + 1, h => by simp at h
  | a :: l, n + 1, h => by
    by_cases ha : p a = true
    · rw [List.takeWhile_cons_of_pos ha, List.length_cons] at h ⊢
      rw [List.drop_succ_cons, length_takeWhile_eq_add (Nat.le_of_succ_le_succ h)]
      omega
    · rw [List.takeWhile_cons_of_neg ha] at h
      simp at h

/-- What is appended does not count if it starts with nothing that satisfies the condition. -/
theorem takeWhile_append_of_forall_not {l r : List α} (h : ∀ a ∈ r, ¬p a = true) :
    (l ++ r).takeWhile p = l.takeWhile p := by
  have hr : r.takeWhile p = [] := by
    cases r with
    | nil => rfl
    | cons a r => exact List.takeWhile_cons_of_neg (h a List.mem_cons_self)
  rw [List.takeWhile_append]
  split
  · rename_i hl
    rw [hr, List.append_nil]
    exact ((List.takeWhile_prefix p).eq_of_length hl).symm
  · rfl

/-- What is appended does not count if its first element does not satisfy the condition. -/
theorem takeWhile_append_of_head {l r : List α} (h : ∀ a ∈ r.head?, ¬p a = true) :
    (l ++ r).takeWhile p = l.takeWhile p := by
  induction l with
  | nil =>
    cases r with
    | nil => rfl
    | cons a r => exact List.takeWhile_cons_of_neg (h a rfl)
  | cons b l ih => rw [List.cons_append, List.takeWhile_cons, List.takeWhile_cons, ih]

/-- A weaker condition and a longer list have a longer initial part. -/
theorem length_takeWhile_le {l r : List α} (h : ∀ a, p a = true → q a = true) :
    (l.takeWhile p).length ≤ ((l ++ r).takeWhile q).length := by
  induction l with
  | nil => simp
  | cons a l ih =>
    by_cases ha : p a = true
    · rw [List.takeWhile_cons_of_pos ha, List.cons_append, List.takeWhile_cons_of_pos (h a ha)]
      simpa using ih
    · rw [List.takeWhile_cons_of_neg ha]
      exact Nat.zero_le _

/-- The initial part for a weaker condition goes on where the one for a stronger stops. -/
theorem takeWhile_append_takeWhile (h : ∀ a, p a = true → q a = true) (l : List α) :
    l.takeWhile p ++ (l.dropWhile p).takeWhile q = l.takeWhile q := by
  conv => rhs; rw [← List.takeWhile_append_dropWhile (p := p) (l := l)]
  rw [List.takeWhile_append_of_pos fun a ha => h a (List.mem_takeWhile_imp ha)]

section Monotone

variable {l : List α}

theorem forall_mem_dropWhile_not (h : l.Pairwise fun a b => p b = true → p a = true) :
    ∀ a ∈ l.dropWhile p, ¬p a = true := by
  induction l with
  | nil => simp
  | cons b l ih =>
    obtain ⟨hb, hl⟩ := List.pairwise_cons.mp h
    by_cases hp : p b = true
    · rw [List.dropWhile_cons_of_pos hp]
      exact ih hl
    · rw [List.dropWhile_cons_of_neg hp]
      intro a ha hpa
      rcases List.mem_cons.mp ha with rfl | ha
      · exact hp hpa
      · exact hp (hb a ha hpa)

theorem takeWhile_eq_filter (h : l.Pairwise fun a b => p b = true → p a = true) :
    l.takeWhile p = l.filter p := by
  conv => rhs; rw [← List.takeWhile_append_dropWhile (p := p) (l := l)]
  rw [List.filter_append, List.filter_eq_nil_iff.mpr (forall_mem_dropWhile_not h),
    List.append_nil, List.filter_eq_self.mpr fun a ha => List.mem_takeWhile_imp ha]

/-- Where a condition, once true, stays true, the last element that satisfies it is the last of
all. -/
theorem getLast?_filter (h : l.Pairwise fun a b => p a = true → p b = true) :
    (l.filter p).getLast? = l.getLast?.filter p := by
  rcases List.eq_nil_or_concat l with rfl | ⟨l, b, rfl⟩
  · rfl
  rw [List.concat_eq_append] at h ⊢
  rw [List.filter_append, List.getLast?_append, List.getLast?_append, List.getLast?_singleton,
    Option.some_or, Option.filter_some]
  by_cases hb : p b = true
  · rw [if_pos hb, List.filter_cons_of_pos hb]
    rfl
  · have hl : l.filter p = [] := List.filter_eq_nil_iff.mpr fun a ha hpa =>
      hb ((List.pairwise_append.mp h).2.2 a ha b List.mem_cons_self hpa)
    rw [if_neg hb, List.filter_cons_of_neg hb, hl]
    rfl

end Monotone

end CallContract
