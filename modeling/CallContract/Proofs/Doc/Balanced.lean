import CallContract.Proofs.Doc.DefaultTag
import Mathlib

/-!
# Balanced brackets

Brackets balance in a text (`Tag.Balanced`) if each is closed by one behind it, and no closing
bracket is left over. What stands between a quote and the next quote of its kind does not count,
and every quote has to be one of such a pair.

A bracket in front of a text closes behind it, whatever follows, exactly if brackets balance in the
text (`Tag.closes_iff_balanced`). Going over a balanced text changes nothing about the brackets that
are open (`Tag.Balanced.enclosed?_append`). Conversely, the text up to the bracket that closes
`depth` further ones falls into `depth + 1` balanced texts with a closing bracket between them
(`Tag.Unwinds`).
-/

namespace CallContract.Tag

open Text

variable {opener closer q : Char} {s t : List Char}

/-- Brackets balance in a text, except between two quotes of one kind. -/
inductive Balanced (opener closer : Char) : List Char → Prop where
  | nil : Balanced opener closer []
  | plain {c : Char} {s : List Char} (hc : Plain opener closer c) (hs : Balanced opener closer s) :
    Balanced opener closer (c :: s)
  | quoted {q : Char} {inside s : List Char} (hq : isQuote q = true) (hinside : q ∉ inside)
    (hs : Balanced opener closer s) : Balanced opener closer (q :: (inside ++ q :: s))
  | nested {inside s : List Char} (hinside : Balanced opener closer inside)
    (hs : Balanced opener closer s) : Balanced opener closer (opener :: (inside ++ closer :: s))

namespace Balanced

theorem append (hs : Balanced opener closer s) (ht : Balanced opener closer t) :
    Balanced opener closer (s ++ t) := by
  induction hs with
  | nil => exact ht
  | plain hc _ ih => exact .plain hc ih
  | quoted hq hinside _ ih =>
    rw [List.cons_append, List.append_assoc]
    exact .quoted hq hinside ih
  | nested hinside _ _ ih =>
    rw [List.cons_append, List.append_assoc]
    exact .nested hinside ih

theorem of_plain : ∀ {s : List Char}, (∀ c ∈ s, Plain opener closer c) → Balanced opener closer s
  | [], _ => .nil
  | _ :: _, h => .plain (List.forall_mem_cons.mp h).1 (of_plain (List.forall_mem_cons.mp h).2)

/-- A text between quotes is balanced. -/
theorem of_quoted (hq : isQuote q = true) (hs : q ∉ s) :
    Balanced opener closer (q :: (s ++ [q])) :=
  .quoted hq hs .nil

end Balanced

/-! ## Going over a balanced text -/

section Brackets

variable (hopener : isQuote opener = false) (hcloser : isQuote closer = false)
  (hne : closer ≠ opener)

include hopener in
theorem enclosed?_opener (depth : Nat) (s : List Char) :
    enclosed? opener closer depth none (opener :: s) =
      (enclosed? opener closer (depth + 1) none s).map fun p => (opener :: p.1, p.2) := by
  rw [enclosed?, if_neg (by simp [hopener]), if_pos rfl]

include hcloser hne in
theorem enclosed?_closer (depth : Nat) (s : List Char) :
    enclosed? opener closer (depth + 1) none (closer :: s) =
      (enclosed? opener closer depth none s).map fun p => (closer :: p.1, p.2) := by
  rw [enclosed?, if_neg (by simp [hcloser]), if_neg hne, if_pos rfl, if_neg (Nat.succ_ne_zero _),
    Nat.add_sub_cancel]

include hopener hcloser hne

/-- Going over a balanced text, as many brackets are open behind it as before. -/
theorem Balanced.enclosed?_append (hs : Balanced opener closer s) (depth : Nat) (t : List Char) :
    enclosed? opener closer depth none (s ++ t) =
      (enclosed? opener closer depth none t).map fun p => (s ++ p.1, p.2) := by
  induction hs generalizing depth t with
  | nil => simp
  | plain hc _ ih =>
    rw [List.cons_append, enclosed?_plain hc, ih, Option.map_map]
    rfl
  | quoted hq hinside _ ih =>
    rw [List.cons_append, List.append_assoc, List.cons_append, enclosed?, if_pos hq,
      enclosed?_quoted depth _ hinside, ih, Option.map_map, Option.map_map]
    simp [Function.comp_def]
  | nested _ _ ihinside ih =>
    rw [List.cons_append, List.append_assoc, List.cons_append, enclosed?_opener hopener,
      ihinside, enclosed?_closer hcloser hne, ih, Option.map_map, Option.map_map, Option.map_map]
    simp [Function.comp_def]

theorem Balanced.closes (hs : Balanced opener closer s) : Closes opener closer s := fun rest => by
  rw [hs.enclosed?_append hopener hcloser hne, enclosed?, if_neg (by simp [hcloser]), if_neg hne,
    if_pos rfl, if_pos rfl, Option.map_some, List.append_nil]

end Brackets

/-! ## What a bracket closes behind -/

/-- Balanced texts with `depth` closing brackets between them. -/
def Unwinds (opener closer : Char) : (depth : Nat) → List Char → Prop
  | 0, s => Balanced opener closer s
  | depth + 1, s => ∃ a b, s = a ++ closer :: b ∧ Balanced opener closer a ∧
    Unwinds opener closer depth b

namespace Unwinds

/-- A balanced text in front makes no difference. -/
theorem append {depth : Nat} (hs : Balanced opener closer s) (ht : Unwinds opener closer depth t) :
    Unwinds opener closer depth (s ++ t) := by
  cases depth with
  | zero => exact hs.append ht
  | succ depth =>
    obtain ⟨a, b, rfl, ha, hb⟩ := ht
    exact ⟨s ++ a, b, (List.append_assoc ..).symm, hs.append ha, hb⟩

/-- A bracket in front of a text closes at the first closing bracket that is left over there. -/
theorem opened {depth : Nat} (hs : Unwinds opener closer (depth + 1) s) :
    Unwinds opener closer depth (opener :: s) := by
  obtain ⟨a, b, rfl, ha, hb⟩ := hs
  have hpair : Balanced opener closer (opener :: (a ++ [closer])) := .nested ha .nil
  have := append hpair hb
  rwa [List.cons_append, List.append_assoc, List.singleton_append] at this

end Unwinds

/-- Within quotes the text goes on to the closing quote, and from there as without quotes. -/
theorem exists_of_enclosed?_quoted {depth : Nat} {rest : List Char} : ∀ {s inside : List Char},
    enclosed? opener closer depth (some q) s = some (inside, rest) →
      ∃ a b t, inside = a ++ q :: b ∧ q ∉ a ∧ s = a ++ q :: t ∧
        enclosed? opener closer depth none t = some (b, rest)
  | [], _, h => by cases h
  | c :: s, inside, h => by
    rw [enclosed?] at h
    obtain ⟨⟨x, y⟩, hx, heq⟩ := Option.map_eq_some_iff.mp h
    obtain ⟨rfl, rfl⟩ := Prod.mk.inj heq
    by_cases hc : c = q
    · subst hc
      rw [if_pos rfl] at hx
      exact ⟨[], x, s, rfl, List.not_mem_nil, rfl, hx⟩
    · rw [if_neg hc] at hx
      obtain ⟨a, b, t, rfl, ha, rfl, ht⟩ := exists_of_enclosed?_quoted hx
      exact ⟨c :: a, b, t, rfl, by simp [Ne.symm hc, ha], rfl, ht⟩

/-- The text up to the bracket that closes `depth` further ones is balanced between them. -/
theorem unwinds_of_enclosed? {depth : Nat} {inside rest : List Char}
    (h : enclosed? opener closer depth none s = some (inside, rest)) :
    Unwinds opener closer depth inside := by
  -- The scan may jump over a quoted text, so the induction is on the length of what is left.
  induction hn : s.length using Nat.strong_induction_on generalizing s depth inside with
  | _ n ih =>
  subst hn
  match s with
  | [] => cases h
  | c :: s =>
    rw [enclosed?] at h
    split at h
    next hq =>
      obtain ⟨⟨x, y⟩, hx, heq⟩ := Option.map_eq_some_iff.mp h
      obtain ⟨rfl, rfl⟩ := Prod.mk.inj heq
      obtain ⟨a, b, t, rfl, ha, rfl, ht⟩ := exists_of_enclosed?_quoted hx
      have hb := ih t.length (by simp; omega) ht rfl
      have := hb.append (.of_quoted hq ha)
      rwa [List.cons_append, List.append_assoc, List.singleton_append] at this
    next hq =>
      split at h
      next hopen =>
        subst hopen
        obtain ⟨⟨x, y⟩, hx, heq⟩ := Option.map_eq_some_iff.mp h
        obtain ⟨rfl, rfl⟩ := Prod.mk.inj heq
        exact (ih s.length (by simp) hx rfl).opened
      next hopen =>
        split at h
        next hclose =>
          subst hclose
          cases depth with
          | zero =>
            rw [if_pos rfl] at h
            obtain ⟨rfl, rfl⟩ := Prod.mk.inj (Option.some.inj h)
            exact .nil
          | succ depth =>
            rw [if_neg (Nat.succ_ne_zero _), Nat.add_sub_cancel] at h
            obtain ⟨⟨x, y⟩, hx, heq⟩ := Option.map_eq_some_iff.mp h
            obtain ⟨rfl, rfl⟩ := Prod.mk.inj heq
            exact ⟨[], x, rfl, .nil, ih s.length (by simp) hx rfl⟩
        next hclose =>
          obtain ⟨⟨x, y⟩, hx, heq⟩ := Option.map_eq_some_iff.mp h
          obtain ⟨rfl, rfl⟩ := Prod.mk.inj heq
          have hplain : Plain opener closer c := ⟨by simpa using hq, hopen, hclose⟩
          have hx := ih s.length (by simp) hx rfl
          exact hx.append (s := [c]) (.plain hplain .nil)

/-- A bracket closes behind a text, whatever follows, exactly if brackets balance in the text. -/
theorem closes_iff_balanced (hopener : isQuote opener = false) (hcloser : isQuote closer = false)
    (hne : closer ≠ opener) : Closes opener closer s ↔ Balanced opener closer s :=
  ⟨fun h => unwinds_of_enclosed? (h []), fun h => h.closes hopener hcloser hne⟩

end CallContract.Tag
