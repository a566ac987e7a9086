import CallContract.Table

/-!
# Lemmas on tables

What the pairs of a table are after one of its operations, and that no operation gives it a key
twice. A table of a list that has no key twice is the list itself (`Table.ofList_of_nodup`).
-/

namespace CallContract.Table

variable {κ α : Type} [DecidableEq κ]

/-! ## Pairs -/

theorem mem_of_find? {t : Table κ α} {k : κ} {v : α} (h : find? t k = some v) : (k, v) ∈ t := by
  induction t with
  | nil => simp at h
  | cons e t ih =>
    rw [find?] at h
    split at h
    · rename_i heq
      obtain rfl := Option.some.inj h
      exact heq ▸ List.mem_cons_self
    · exact List.mem_cons_of_mem _ (ih h)

theorem mem_insert {e : κ × α} {k : κ} {v : α} : ∀ {t : Table κ α}, e ∈ insert t k v →
    e = (k, v) ∨ e ∈ t
  | [], h => Or.inl (List.mem_singleton.mp h)
  | (l, w) :: t, h => by
    rw [insert] at h
    split at h
    · rename_i heq
      rcases List.mem_cons.mp h with rfl | h
      · exact Or.inl (by rw [heq])
      · exact Or.inr (List.mem_cons_of_mem _ h)
    · rcases List.mem_cons.mp h with rfl | h
      · exact Or.inr List.mem_cons_self
      · exact (mem_insert h).imp_right (List.mem_cons_of_mem _)

theorem mem_insertNew {e : κ × α} {t : Table κ α} {k : κ} {v : α} (h : e ∈ insertNew t k v) :
    e = (k, v) ∨ e ∈ t := by
  unfold insertNew at h
  split at h
  · exact Or.inr h
  · exact mem_insert h

theorem erase_sublist (k : κ) : ∀ t : Table κ α, List.Sublist (erase t k) t
  | [] => List.Sublist.refl []
  | (l, w) :: t => by
    rw [erase]
    split
    · exact List.sublist_cons_self _ t
    · exact (erase_sublist k t).cons_cons _

theorem mem_modify {e : κ × α} {k : κ} {f : α → α} : ∀ {t : Table κ α}, e ∈ modify t k f →
    e ∈ t ∨ ∃ v, (e.1, v) ∈ t ∧ e.2 = f v
  | (l, w) :: t, h => by
    rw [modify] at h
    split at h
    · rcases List.mem_cons.mp h with rfl | h
      · exact Or.inr ⟨w, List.mem_cons_self, rfl⟩
      · exact Or.inl (List.mem_cons_of_mem _ h)
    · rcases List.mem_cons.mp h with rfl | h
      · exact Or.inl List.mem_cons_self
      · exact (mem_modify h).imp (List.mem_cons_of_mem _) fun ⟨v, hv, hf⟩ =>
          ⟨v, List.mem_cons_of_mem _ hv, hf⟩

theorem mem_foldl_insert {e : κ × α} : ∀ {l t : Table κ α},
    e ∈ l.foldl (fun t e => insert t e.1 e.2) t → e ∈ t ∨ e ∈ l
  | [], _, h => Or.inl h
  | f :: l, t, h => by
    have hfold : e ∈ l.foldl (fun t e => insert t e.1 e.2) (insert t f.1 f.2) := h
    rcases mem_foldl_insert hfold with h | h
    · rcases mem_insert h with rfl | h
      · exact Or.inr List.mem_cons_self
      · exact Or.inl h
    · exact Or.inr (List.mem_cons_of_mem _ h)

theorem mem_ofList {e : κ × α} {l : List (κ × α)} (h : e ∈ ofList l) : e ∈ l :=
  (mem_foldl_insert h).resolve_left List.not_mem_nil

/-! ## Keys -/

theorem nodup_insert (k : κ) (v : α) :
    ∀ {t : Table κ α}, (keys t).Nodup → (keys (insert t k v)).Nodup
  | [], _ => List.nodup_cons.mpr ⟨List.not_mem_nil, List.nodup_nil⟩
  | (l, w) :: t, h => by
    obtain ⟨hl, ht⟩ := List.nodup_cons.mp h
    rw [insert]
    split
    · exact h
    · rename_i hne
      refine List.nodup_cons.mpr ⟨fun hm => ?_, nodup_insert k v ht⟩
      obtain ⟨e, he, heq⟩ := List.mem_map.mp hm
      rcases mem_insert he with rfl | he
      · exact hne heq.symm
      · exact hl (List.mem_map.mpr ⟨e, he, heq⟩)

theorem nodup_insertNew {t : Table κ α} (k : κ) (v : α) (h : (keys t).Nodup) :
    (keys (insertNew t k v)).Nodup := by
  unfold insertNew
  split
  · exact h
  · exact nodup_insert k v h

theorem nodup_erase {t : Table κ α} (k : κ) (h : (keys t).Nodup) : (keys (erase t k)).Nodup :=
  h.sublist ((erase_sublist k t).map Prod.fst)

theorem keys_modify (k : κ) (f : α → α) : ∀ t : Table κ α, keys (modify t k f) = keys t
  | [] => rfl
  | (l, w) :: t => by
    rw [modify]
    split
    · rfl
    · exact congrArg (l :: ·) (keys_modify k f t)

theorem keys_erase (k : κ) : ∀ t : Table κ α, keys (erase t k) = (keys t).erase k
  | [] => rfl
  | (l, w) :: t => by
    rw [erase]
    by_cases hl : l = k
    · rw [if_pos hl, keys, keys, List.map_cons, hl, List.erase_cons_head]
    · rw [if_neg hl, keys, List.map_cons, keys, List.map_cons,
        List.erase_cons_tail (by simpa using hl)]
      exact congrArg (l :: ·) (keys_erase k t)

theorem mem_keys_insert {t : Table κ α} {k k' : κ} {v : α} :
    k' ∈ keys (insert t k v) ↔ k' ∈ keys t ∨ k' = k := by
  rw [mem_keys_iff, mem_keys_iff]
  by_cases hk : k' = k
  · simp [hk]
  · simp [find?_insert_of_ne t v hk, hk]

theorem mem_keys_foldl_insert {k : κ} : ∀ {l t : Table κ α},
    k ∈ keys (l.foldl (fun t e => insert t e.1 e.2) t) ↔ k ∈ keys t ∨ k ∈ keys l
  | [], t => by simp [keys]
  | e :: l, t => by
    rw [List.foldl_cons, mem_keys_foldl_insert, mem_keys_insert, or_assoc]
    simp [keys]

theorem mem_keys_ofList {k : κ} {l : List (κ × α)} : k ∈ keys (ofList l) ↔ k ∈ keys l := by
  rw [ofList, mem_keys_foldl_insert]
  simp [keys]

theorem nodup_foldl_insert : ∀ (l : List (κ × α)) {t : Table κ α}, (keys t).Nodup →
    (keys (l.foldl (fun t e => insert t e.1 e.2) t)).Nodup
  | [], _, h => h
  | e :: l, _, h => nodup_foldl_insert l (nodup_insert e.1 e.2 h)

theorem nodup_ofList (l : List (κ × α)) : (keys (ofList l)).Nodup :=
  nodup_foldl_insert l List.nodup_nil

omit [DecidableEq κ] in
/-- What becomes of values, if anything, leaves the keys distinct. -/
theorem nodup_filterMap {β : Type} {t : Table κ α} (f : κ × α → Option β) (h : (keys t).Nodup) :
    (keys (t.filterMap fun e => (f e).map fun v => (e.1, v))).Nodup := by
  refine List.pairwise_map.mpr (List.pairwise_filterMap.mpr ?_)
  refine (List.pairwise_map.mp h).imp fun hne x hx y hy => ?_
  obtain ⟨_, _, rfl⟩ := Option.map_eq_some_iff.mp hx
  obtain ⟨_, _, rfl⟩ := Option.map_eq_some_iff.mp hy
  exact hne

/-! ## Looking up -/

theorem find?_eq_some_iff {t : Table κ α} {k : κ} {v : α} (h : (keys t).Nodup) :
    find? t k = some v ↔ (k, v) ∈ t := by
  refine ⟨mem_of_find?, fun hm => ?_⟩
  induction t with
  | nil => cases hm
  | cons e t ih =>
    obtain ⟨he, ht⟩ := List.nodup_cons.mp h
    rw [find?]
    rcases List.mem_cons.mp hm with rfl | hm
    · rw [if_pos rfl]
    · rw [if_neg fun heq => he (List.mem_map.mpr ⟨(k, v), hm, heq.symm⟩), ih ht hm]

theorem find?_append (t u : Table κ α) (k : κ) :
    find? (t ++ u) k = (find? t k).or (find? u k) := by
  induction t with
  | nil => rfl
  | cons e t ih =>
    rw [List.cons_append, find?, find?, ih]
    split <;> rfl

/-- Removing a key leaves the other keys as they are. -/
theorem find?_erase_of_ne {k k' : κ} (h : k' ≠ k) :
    ∀ t : Table κ α, find? (erase t k) k' = find? t k'
  | [] => rfl
  | (l, w) :: t => by
    rw [erase]
    split
    · rename_i hl
      rw [find?, if_neg (hl ▸ Ne.symm h)]
    · rw [find?, find?, find?_erase_of_ne h t]

theorem find?_modify_self (k : κ) (f : α → α) :
    ∀ t : Table κ α, find? (modify t k f) k = (find? t k).map f
  | [] => rfl
  | (l, w) :: t => by
    rw [modify]
    split
    · rename_i hl
      rw [find?, find?, if_pos hl, if_pos hl]
      rfl
    · rename_i hl
      rw [find?, find?, if_neg hl, if_neg hl, find?_modify_self k f t]

/-- Changing a value leaves the others as they are. -/
theorem find?_modify_of_ne {k k' : κ} (f : α → α) (h : k' ≠ k) :
    ∀ t : Table κ α, find? (modify t k f) k' = find? t k'
  | [] => rfl
  | (l, w) :: t => by
    rw [modify]
    split
    · rename_i hl
      rw [find?, find?, if_neg (hl ▸ Ne.symm h), if_neg (hl ▸ Ne.symm h)]
    · rw [find?, find?, find?_modify_of_ne f h t]

theorem insert_eq_append {k : κ} {v : α} :
    ∀ {t : Table κ α}, k ∉ keys t → insert t k v = t ++ [(k, v)]
  | [], _ => rfl
  | (l, w) :: t, h => by
    rw [keys, List.map_cons, List.mem_cons, not_or] at h
    rw [insert, if_neg (Ne.symm h.1), insert_eq_append h.2]
    rfl

/-- Storing under a new key only leaves what is there at the start. -/
theorem prefix_insertNew (t : Table κ α) (k : κ) (v : α) : t <+: insertNew t k v := by
  unfold insertNew
  split
  · exact List.prefix_rfl
  · rename_i hc
    rw [insert_eq_append fun hk => hc ((mem_keys_iff t k).mp hk)]
    exact List.prefix_append _ _

theorem foldl_insert_of_nodup : ∀ {l t : Table κ α}, (keys (t ++ l)).Nodup →
    l.foldl (fun t e => insert t e.1 e.2) t = t ++ l
  | [], t, _ => (List.append_nil t).symm
  | e :: l, t, h => by
    have hfresh : e.1 ∉ keys t := by
      rw [keys, List.map_append, List.nodup_append] at h
      exact fun hm => h.2.2 _ hm _ List.mem_cons_self rfl
    rw [List.foldl_cons, insert_eq_append hfresh,
      foldl_insert_of_nodup (by rwa [List.append_assoc]), List.append_assoc]
    rfl

/-- A table that has no key twice is made of its pairs. -/
theorem ofList_of_nodup {t : Table κ α} (h : t.keys.Nodup) : ofList t = t :=
  foldl_insert_of_nodup (t := []) h

end CallContract.Table
