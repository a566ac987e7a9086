import CallContract.ArgPath
import Mathlib.Data.List.MinMax

/-!
# Paths below a path

A path is above another if the other goes on behind it with a point (`ArgPath.isAbove_iff`). So
what is below a path is longer, has a last key, and what is below that is below the path too.
Among finitely many things below a path one has no other below it, such as the one whose path is
longest (`ArgPath.exists_innermost`).

Of two paths above a third one leads to the other (`ArgPath.leadsTo_or_leadsTo`). So what lies at
or below paths that are apart is apart too (`ArgPath.Apart.of_leadsTo`).
-/

namespace CallContract

namespace Text

theorem afterStart?_append (p s : List Char) : afterStart? p (p ++ s) = some s := by
  induction p with
  | nil => rfl
  | cons a p ih => rw [List.cons_append, afterStart?, if_pos rfl, ih]

theorem beforeEnd?_append (p s : List Char) : beforeEnd? p (s ++ p) = some s := by
  rw [beforeEnd?, List.reverse_append, afterStart?_append, Option.map_some, List.reverse_reverse]

theorem startsWith_iff {p s : List Char} : startsWith p s = true ↔ ∃ rest, s = p ++ rest := by
  constructor
  · intro h
    obtain ⟨rest, hrest⟩ := Option.isSome_iff_exists.mp h
    exact ⟨rest, eq_append_of_afterStart? hrest⟩
  · rintro ⟨rest, rfl⟩
    rw [startsWith, afterStart?_append]
    rfl

theorem isSome_splitLast {sep : Char} : ∀ {s : List Char}, sep ∈ s →
    (splitLast sep s).isSome = true
  | c :: s, h => by
    rw [splitLast]
    cases hs : splitLast sep s with
    | some q => rfl
    | none =>
      rcases List.mem_cons.mp h with rfl | h
      · simp
      · have := isSome_splitLast h
        rw [hs] at this
        cases this

theorem splitLast_eq_none {sep : Char} : ∀ {s : List Char}, sep ∉ s → splitLast sep s = none
  | [], _ => rfl
  | c :: s, h => by
    rw [List.mem_cons, not_or] at h
    rw [splitLast, splitLast_eq_none h.2]
    exact if_neg (Ne.symm h.1)

end Text

namespace ArgPath

variable {p q s : ArgPath}

theorem isAbove_iff :
    p.isAbove q = true ↔ ∃ rest, q.text.toList = p.text.toList ++ '.' :: rest := by
  rw [isAbove, Text.startsWith_iff]
  simp only [List.append_assoc, List.singleton_append]

theorem isAbove_trans (hpq : p.isAbove q = true) (hqs : q.isAbove s = true) :
    p.isAbove s = true := by
  obtain ⟨a, ha⟩ := isAbove_iff.mp hpq
  obtain ⟨b, hb⟩ := isAbove_iff.mp hqs
  exact isAbove_iff.mpr ⟨a ++ '.' :: b, by rw [hb, ha, List.append_assoc, List.cons_append]⟩

theorem length_lt_of_isAbove (h : p.isAbove q = true) :
    p.text.toList.length < q.text.toList.length := by
  obtain ⟨rest, hrest⟩ := isAbove_iff.mp h
  rw [hrest, List.length_append, List.length_cons]
  omega

theorem exists_lastKey?_of_isAbove (h : p.isAbove q = true) :
    ∃ key, q.lastKey? = some key := by
  obtain ⟨rest, hrest⟩ := isAbove_iff.mp h
  have hpoint : '.' ∈ q.text.toList := by simp [hrest]
  obtain ⟨cut, hcut⟩ := Option.isSome_iff_exists.mp (Text.isSome_splitLast hpoint)
  exact ⟨String.ofList cut.2, by rw [lastKey?, hcut]; rfl⟩

/-- What is below a path has an innermost among it. -/
theorem exists_innermost {α : Type} {f : α → ArgPath} {l : List α} {a : α} (ha : a ∈ l)
    (h : p.isAbove (f a) = true) :
    ∃ b ∈ l, p.isAbove (f b) = true ∧ ∀ c ∈ l, (f b).isAbove (f c) = false := by
  have hbelow : a ∈ l.filter fun b => p.isAbove (f b) := List.mem_filter.mpr ⟨ha, h⟩
  cases hb : (l.filter fun b => p.isAbove (f b)).argmax
      fun b => (f b).text.toList.length with
  | none =>
    rw [List.argmax_eq_none.mp hb] at hbelow
    cases hbelow
  | some b =>
    obtain ⟨hmem, habove⟩ := List.mem_filter.mp (List.argmax_mem hb)
    refine ⟨b, hmem, habove, fun c hc => Bool.eq_false_iff.mpr fun hbc => ?_⟩
    -- a thing below the longest would be longer
    have hle := List.le_of_mem_argmax
      (List.mem_filter.mpr ⟨hc, isAbove_trans habove hbc⟩) hb
    have := length_lt_of_isAbove hbc
    omega

/-! ## Paths apart -/

/-- The path `q` is `p` or lies below it. -/
def LeadsTo (p q : ArgPath) : Prop := p = q ∨ p.isAbove q = true

instance (p q : ArgPath) : Decidable (p.LeadsTo q) :=
  inferInstanceAs (Decidable (p = q ∨ p.isAbove q = true))

/-- Paths that differ, and of which neither lies below the other. -/
def Apart (p q : ArgPath) : Prop := ¬p.LeadsTo q ∧ ¬q.LeadsTo p

instance (p q : ArgPath) : Decidable (p.Apart q) :=
  inferInstanceAs (Decidable (¬p.LeadsTo q ∧ ¬q.LeadsTo p))

theorem Apart.symm (h : p.Apart q) : q.Apart p := ⟨h.2, h.1⟩

theorem leadsTo_iff : p.LeadsTo q ↔ ∃ rest, q.text.toList = p.text.toList ++ rest ∧
    (rest = [] ∨ ∃ more, rest = '.' :: more) := by
  constructor
  · rintro (rfl | h)
    · exact ⟨[], (List.append_nil _).symm, Or.inl rfl⟩
    · obtain ⟨rest, hrest⟩ := isAbove_iff.mp h
      exact ⟨_, hrest, Or.inr ⟨rest, rfl⟩⟩
  · rintro ⟨rest, hrest, rfl | ⟨more, rfl⟩⟩
    · rw [List.append_nil] at hrest
      exact Or.inl (congrArg mk (String.toList_injective hrest.symm))
    · exact Or.inr (isAbove_iff.mpr ⟨more, hrest⟩)

theorem leadsTo_trans (hpq : p.LeadsTo q) (hqs : q.LeadsTo s) : p.LeadsTo s := by
  rcases hpq with rfl | hpq
  · exact hqs
  rcases hqs with rfl | hqs
  · exact Or.inr hpq
  · exact Or.inr (isAbove_trans hpq hqs)

/-- A path that goes on with the start of nothing, or of a point, goes on with nothing or a
point. -/
theorem leadsTo_of_append {m rest : List Char} (hq : q.text.toList = p.text.toList ++ m)
    (h : m ++ rest = [] ∨ ∃ more, m ++ rest = '.' :: more) : p.LeadsTo q := by
  refine leadsTo_iff.mpr ⟨m, hq, ?_⟩
  rcases m with _ | ⟨c, m⟩
  · exact Or.inl rfl
  · obtain ⟨more, hmore⟩ := h.resolve_left (List.cons_ne_nil _ _)
    exact Or.inr ⟨m, by rw [(List.cons.inj hmore).1]⟩

/-- Paths that lead to the same one lie on one line. -/
theorem leadsTo_or_leadsTo (hp : p.LeadsTo s) (hq : q.LeadsTo s) : p.LeadsTo q ∨ q.LeadsTo p := by
  obtain ⟨a, ha, hap⟩ := leadsTo_iff.mp hp
  obtain ⟨b, hb, hbp⟩ := leadsTo_iff.mp hq
  rcases List.append_eq_append_iff.mp (ha.symm.trans hb) with ⟨m, hm, rfl⟩ | ⟨m, hm, rfl⟩
  · exact Or.inl (leadsTo_of_append hm hap)
  · exact Or.inr (leadsTo_of_append hm hbp)

/-- What paths that are apart lead to is apart. -/
theorem Apart.of_leadsTo {p' q' : ArgPath} (h : p.Apart q) (hp : p.LeadsTo p')
    (hq : q.LeadsTo q') : p'.Apart q' := by
  refine ⟨fun hpq => ?_, fun hqp => ?_⟩
  · exact (leadsTo_or_leadsTo (leadsTo_trans hp hpq) hq).elim h.1 h.2
  · exact (leadsTo_or_leadsTo hp (leadsTo_trans hq hqp)).elim h.1 h.2

end ArgPath

end CallContract
