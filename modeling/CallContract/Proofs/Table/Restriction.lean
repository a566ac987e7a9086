import CallContract.Proofs.Table

/-!
# Some keys of a table

A table restricted to some keys is the table of the pairs that have these keys
(`Table.restrict_ofList`, `Table.restrict_foldl_insertNew`), so pairs of other keys can neither
move nor change what it holds. Looking a key up finds the last pair that was stored under it
(`Table.find?_ofList`), or the first if none was to take the place of another
(`Table.find?_foldl_insertNew`).
-/

namespace CallContract.Table

variable {κ α : Type} {keep : κ → Bool} {k : κ} {v : α}

/-- The pairs of a table whose keys pass a test. -/
def restrict (keep : κ → Bool) (t : Table κ α) : Table κ α := t.filter fun e => keep e.1

@[simp] theorem restrict_nil : restrict keep ([] : Table κ α) = [] := rfl

theorem restrict_cons_of_keep {t : Table κ α} (h : keep k = true) :
    restrict keep ((k, v) :: t) = (k, v) :: restrict keep t := List.filter_cons_of_pos h

theorem restrict_cons_of_drop {t : Table κ α} (h : keep k = false) :
    restrict keep ((k, v) :: t) = restrict keep t :=
  List.filter_cons_of_neg (by simp [h])

theorem restrict_append (t u : Table κ α) :
    restrict keep (t ++ u) = restrict keep t ++ restrict keep u := List.filter_append ..

theorem restrict_eq_nil {t : Table κ α} (h : ∀ e ∈ t, keep e.1 = false) : restrict keep t = [] :=
  List.filter_eq_nil_iff.mpr fun e he => by simp [h e he]

/-- Pairs that give nothing can be left out. -/
theorem flatMap_restrict {β : Type} {g : κ × α → List β} {t : Table κ α}
    (h : ∀ e ∈ t, keep e.1 = false → g e = []) : (restrict keep t).flatMap g = t.flatMap g := by
  induction t with
  | nil => rfl
  | cons e t ih =>
    obtain ⟨he, ht⟩ := List.forall_mem_cons.mp h
    rw [List.flatMap_cons, ← ih ht]
    cases hkeep : keep e.1 with
    | true => rw [restrict_cons_of_keep hkeep, List.flatMap_cons]
    | false => rw [restrict_cons_of_drop hkeep, he hkeep, List.nil_append]

/-- Pairs that give nothing for the keys that pass a test can be left out before. -/
theorem restrict_flatMap {β : Type} {g : κ × α → Table κ β} {t : Table κ α}
    (h : ∀ e ∈ t, keep e.1 = false → restrict keep (g e) = []) :
    restrict keep (t.flatMap g) = (restrict keep t).flatMap fun e => restrict keep (g e) := by
  rw [flatMap_restrict h, restrict, List.filter_flatMap]
  rfl

variable [DecidableEq κ]

theorem find?_restrict (h : keep k = true) : ∀ t : Table κ α, find? (restrict keep t) k = find? t k
  | [] => rfl
  | (l, w) :: t => by
    cases hl : keep l with
    | true => rw [restrict_cons_of_keep hl, find?, find?, find?_restrict h t]
    | false =>
      have hne : l ≠ k := fun heq => by rw [heq, h] at hl; cases hl
      rw [restrict_cons_of_drop hl, find?, if_neg hne, find?_restrict h t]

/-! ## Storing -/

theorem restrict_insert_of_keep (h : keep k = true) :
    ∀ t : Table κ α, restrict keep (insert t k v) = insert (restrict keep t) k v
  | [] => restrict_cons_of_keep h
  | (l, w) :: t => by
    rw [insert]
    split
    · rename_i heq
      rw [restrict_cons_of_keep (heq ▸ h), restrict_cons_of_keep (heq ▸ h), insert, if_pos heq]
    · rename_i hne
      cases hl : keep l with
      | true =>
        rw [restrict_cons_of_keep hl, restrict_cons_of_keep hl, restrict_insert_of_keep h t,
          insert, if_neg hne]
      | false =>
        rw [restrict_cons_of_drop hl, restrict_cons_of_drop hl, restrict_insert_of_keep h t]

theorem restrict_insert_of_drop (h : keep k = false) :
    ∀ t : Table κ α, restrict keep (insert t k v) = restrict keep t
  | [] => restrict_cons_of_drop h
  | (l, w) :: t => by
    rw [insert]
    split
    · rename_i heq
      rw [restrict_cons_of_drop (heq ▸ h), restrict_cons_of_drop (heq ▸ h)]
    · cases hl : keep l with
      | true => rw [restrict_cons_of_keep hl, restrict_cons_of_keep hl, restrict_insert_of_drop h t]
      | false => rw [restrict_cons_of_drop hl, restrict_cons_of_drop hl,
          restrict_insert_of_drop h t]

theorem restrict_foldl_insert : ∀ (l t : Table κ α),
    restrict keep (l.foldl (fun t e => insert t e.1 e.2) t) =
      (restrict keep l).foldl (fun t e => insert t e.1 e.2) (restrict keep t)
  | [], _ => rfl
  | e :: l, t => by
    rw [List.foldl_cons, restrict_foldl_insert l]
    cases h : keep e.1 with
    | true => rw [restrict_insert_of_keep h, restrict_cons_of_keep h, List.foldl_cons]
    | false => rw [restrict_insert_of_drop h, restrict_cons_of_drop h]

theorem restrict_ofList (l : Table κ α) : restrict keep (ofList l) = ofList (restrict keep l) :=
  restrict_foldl_insert l []

theorem restrict_insertNew_of_keep (h : keep k = true) (t : Table κ α) :
    restrict keep (insertNew t k v) = insertNew (restrict keep t) k v := by
  rw [insertNew, insertNew, contains, contains, find?_restrict h]
  split
  · rfl
  · exact restrict_insert_of_keep h t

theorem restrict_insertNew_of_drop (h : keep k = false) (t : Table κ α) :
    restrict keep (insertNew t k v) = restrict keep t := by
  rw [insertNew]
  split
  · rfl
  · exact restrict_insert_of_drop h t

theorem restrict_foldl_insertNew : ∀ (l t : Table κ α),
    restrict keep (l.foldl (fun t e => insertNew t e.1 e.2) t) =
      (restrict keep l).foldl (fun t e => insertNew t e.1 e.2) (restrict keep t)
  | [], _ => rfl
  | e :: l, t => by
    rw [List.foldl_cons, restrict_foldl_insertNew l]
    cases h : keep e.1 with
    | true => rw [restrict_insertNew_of_keep h, restrict_cons_of_keep h, List.foldl_cons]
    | false => rw [restrict_insertNew_of_drop h, restrict_cons_of_drop h]

/-! ## Looking up what was stored -/

theorem find?_eq_none_of_not_mem {t : Table κ α} (h : k ∉ keys t) : find? t k = none := by
  rw [mem_keys_iff, Bool.not_eq_true, Option.isSome_eq_false_iff] at h
  exact Option.isNone_iff_eq_none.mp h

theorem find?_reverse_eq_none {t : Table κ α} (h : k ∉ keys t) : find? t.reverse k = none := by
  refine find?_eq_none_of_not_mem fun hk => h ?_
  rwa [keys, List.map_reverse, List.mem_reverse] at hk

theorem find?_foldl_insert : ∀ (l t : Table κ α),
    find? (l.foldl (fun t e => insert t e.1 e.2) t) k = (find? l.reverse k).or (find? t k)
  | [], _ => rfl
  | (l, w) :: rest, t => by
    rw [List.foldl_cons, find?_foldl_insert rest, List.reverse_cons, find?_append, Option.or_assoc]
    congr 1
    by_cases h : l = k
    · rw [h, find?_insert_self, find?, if_pos rfl, Option.some_or]
    · rw [find?_insert_of_ne t w (Ne.symm h), find?, if_neg h, find?_nil, Option.none_or]

/-- The last pair of a key is found. -/
theorem find?_ofList (l : Table κ α) : find? (ofList l) k = find? l.reverse k := by
  rw [ofList, find?_foldl_insert, find?_nil, Option.or_none]

theorem find?_ofList_append_cons (front behind : Table κ α) (l : κ) (w : α) :
    find? (ofList (front ++ (l, w) :: behind)) k =
      (find? behind.reverse k).or (if l = k then some w else find? front.reverse k) := by
  rw [find?_ofList, List.reverse_append, List.reverse_cons, List.append_assoc,
    List.singleton_append, find?_append, find?]

/-- What is there is found, or else the first pair of the key. -/
theorem find?_foldl_insertNew : ∀ (l t : Table κ α),
    find? (l.foldl (fun t e => insertNew t e.1 e.2) t) k = (find? t k).or (find? l k)
  | [], _ => by rw [List.foldl_nil, find?_nil, Option.or_none]
  | (l, w) :: rest, t => by
    rw [List.foldl_cons, find?_foldl_insertNew rest, find?]
    by_cases h : l = k
    · subst h
      rw [if_pos rfl, insertNew, contains]
      cases ht : find? t l with
      | none => simp
      | some u => simp [ht]
    · rw [if_neg h, insertNew]
      split
      · rfl
      · rw [find?_insert_of_ne t w (Ne.symm h)]

theorem mem_keys_foldl_insertNew {l t : Table κ α} :
    k ∈ keys (l.foldl (fun t e => insertNew t e.1 e.2) t) ↔ k ∈ keys t ∨ k ∈ keys l := by
  simp only [mem_keys_iff, find?_foldl_insertNew, Option.isSome_or, Bool.or_eq_true]

/-- If a key comes from one pair only, what that pair gives for it is found. -/
theorem find?_flatMap {β : Type} {g : κ × α → Table κ β} {e : κ × α} {w : β} {t : Table κ α}
    (he : e ∈ t) (hfind : find? (g e) k = some w) (honly : ∀ f ∈ t, k ∈ keys (g f) → f = e) :
    find? (t.flatMap g) k = some w := by
  induction t with
  | nil => cases he
  | cons f t ih =>
    obtain ⟨hf, ht⟩ := List.forall_mem_cons.mp honly
    rw [List.flatMap_cons, find?_append]
    by_cases hk : k ∈ keys (g f)
    · rw [hf hk, hfind, Option.some_or]
    · have hne : e ≠ f := fun heq => hk ((mem_keys_iff _ _).mpr (by rw [← heq, hfind]; rfl))
      rw [find?_eq_none_of_not_mem hk, Option.none_or]
      exact ih ((List.mem_cons.mp he).resolve_left hne) ht

end CallContract.Table
