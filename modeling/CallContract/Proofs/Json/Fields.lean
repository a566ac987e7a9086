import CallContract.Json.Value

/-!
# Fields of an object

`Fields.insert` keeps the keys in strictly ascending order (`Fields.Sorted`), so that a key
stands once and fields in order are inserted at the end one by one (`Fields.ofList_of_sorted`).
What is found in fields made of a list is what the list pairs with the key, if it pairs it once
(`Fields.find?_ofList`).
-/

namespace CallContract.Json

namespace Fields

/-- Fields with their keys in strictly ascending order. -/
def Sorted (fs : Fields) : Prop := fs.Pairwise fun e f => e.1 < f.1

theorem lt_or_lt_of_ne {k l : String} (h : k ≠ l) : k < l ∨ l < k := by
  rcases String.le_total k l with hle | hle
  · exact Or.inl (String.not_le.mp fun hle' => h (String.le_antisymm hle hle'))
  · exact Or.inr (String.not_le.mp fun hle' => h (String.le_antisymm hle' hle))

/-- What was set is found. -/
@[simp] theorem find?_insert_self (k : String) (v : Value) :
    ∀ fs : Fields, find? (insert fs k v) k = some v
  | [] => by simp [insert, find?]
  | (l, w) :: fs => by
    rw [insert]
    split
    · simp [find?]
    split
    · simp [find?]
    · rename_i hne _
      rw [find?, if_neg (Ne.symm hne)]
      exact find?_insert_self k v fs

/-- Setting a field leaves the others as they are. -/
theorem find?_insert_of_ne {k k' : String} (v : Value) (h : k' ≠ k) :
    ∀ fs : Fields, find? (insert fs k v) k' = find? fs k'
  | [] => by simp [insert, find?, Ne.symm h]
  | (l, w) :: fs => by
    rw [insert]
    split
    · rename_i heq
      subst heq
      simp [find?, Ne.symm h]
    split
    · simp [find?, Ne.symm h]
    · rw [find?, find?, find?_insert_of_ne v h fs]

/-- Of two values that a field is set to, the last stays. -/
theorem insert_insert_self (k : String) (v w : Value) :
    ∀ fs : Fields, insert (insert fs k v) k w = insert fs k w
  | [] => by simp [insert]
  | (l, u) :: fs => by
    rw [insert, insert]
    split
    · simp [insert]
    split
    · simp [insert]
    · rename_i hne hnlt
      rw [insert, if_neg hne, if_neg hnlt, insert_insert_self k v w fs]

/-- A smaller key in front of all others is set in front. -/
theorem insert_of_lt {k : String} {v : Value} {e : String × Value} {fs : Fields} (h : k < e.1) :
    insert (e :: fs) k v = (k, v) :: e :: fs := by
  rw [insert, if_neg (String.ne_of_lt h), if_pos h]

theorem insert_of_gt {k : String} {v : Value} {e : String × Value} {fs : Fields} (h : e.1 < k) :
    insert (e :: fs) k v = e :: insert fs k v := by
  rw [insert, if_neg (String.ne_of_lt h).symm, if_neg (String.lt_asymm h)]

theorem insert_insert_of_lt {k l : String} (h : k < l) (v w : Value) :
    ∀ fs : Fields, insert (insert fs k v) l w = insert (insert fs l w) k v
  | [] => by
    have hl : insert [] l w = [(l, w)] := rfl
    have hk : insert [] k v = [(k, v)] := rfl
    rw [hl, hk, insert_of_gt h, insert_of_lt h, hl]
  | (m, u) :: fs => by
    by_cases hkm : k = m
    · subst hkm
      have hk : ∀ fs, insert ((k, u) :: fs) k v = (k, v) :: fs := fun fs => by simp [insert]
      rw [hk, insert_of_gt h, insert_of_gt h, hk]
    rcases lt_or_lt_of_ne hkm with hlt | hgt
    · rw [insert_of_lt hlt, insert_of_gt h]
      have hhead : ∃ e gs, insert ((m, u) :: fs) l w = e :: gs ∧ k < e.1 := by
        rw [insert]
        split
        · exact ⟨_, _, rfl, h⟩
        split
        · exact ⟨_, _, rfl, h⟩
        · exact ⟨_, _, rfl, hlt⟩
      obtain ⟨e, gs, heq, hlt⟩ := hhead
      rw [heq, insert_of_lt hlt]
    · have hml := String.lt_trans hgt h
      rw [insert_of_gt hgt, insert_of_gt hml, insert_of_gt hml, insert_of_gt hgt,
        insert_insert_of_lt h v w fs]

/-- Different fields can be set in either order. -/
theorem insert_insert_comm {k l : String} (h : k ≠ l) (v w : Value) (fs : Fields) :
    insert (insert fs k v) l w = insert (insert fs l w) k v := by
  rcases lt_or_lt_of_ne h with hlt | hgt
  · exact insert_insert_of_lt hlt v w fs
  · exact (insert_insert_of_lt hgt w v fs).symm

/-- A key of fields in which a field was set is the key of that field or was there. -/
theorem mem_insert {e : String × Value} {k : String} {v : Value} :
    ∀ {fs : Fields}, e ∈ insert fs k v → e = (k, v) ∨ e ∈ fs
  | [], h => Or.inl (List.mem_singleton.mp h)
  | (l, w) :: fs, h => by
    rw [insert] at h
    split at h
    · rcases List.mem_cons.mp h with h | h
      · exact Or.inl h
      · exact Or.inr (List.mem_cons_of_mem _ h)
    split at h
    · exact List.mem_cons.mp h
    · rcases List.mem_cons.mp h with h | h
      · exact Or.inr (h ▸ List.mem_cons_self)
      · exact (mem_insert h).imp_right (List.mem_cons_of_mem _)

theorem Sorted.insert (k : String) (v : Value) :
    ∀ {fs : Fields}, fs.Sorted → (fs.insert k v).Sorted
  | [], _ => List.pairwise_singleton _ _
  | (l, w) :: fs, h => by
    obtain ⟨hl, hfs⟩ := List.pairwise_cons.mp h
    rw [Fields.insert]
    split
    · rename_i heq
      subst heq
      exact List.pairwise_cons.mpr ⟨hl, hfs⟩
    split
    · rename_i hlt
      refine List.pairwise_cons.mpr ⟨fun e he => ?_, h⟩
      rcases List.mem_cons.mp he with rfl | he
      · exact hlt
      · exact String.lt_trans hlt (hl e he)
    · rename_i hne hnlt
      refine List.pairwise_cons.mpr ⟨fun e he => ?_, Sorted.insert k v hfs⟩
      rcases mem_insert he with rfl | he
      · exact (lt_or_lt_of_ne hne).resolve_left hnlt
      · exact hl e he

theorem Sorted.extend : ∀ (l : List (String × Value)) {fs : Fields},
    fs.Sorted → (fs.extend l).Sorted
  | [], _, h => h
  | e :: l, _, h => Sorted.extend l (h.insert e.1 e.2)

theorem sorted_ofList (l : List (String × Value)) : (ofList l).Sorted :=
  Sorted.extend l List.Pairwise.nil

/-- A field behind all others goes to the end. -/
theorem insert_eq_append {k : String} {v : Value} :
    ∀ {fs : Fields}, (∀ e ∈ fs, e.1 < k) → insert fs k v = fs ++ [(k, v)]
  | [], _ => rfl
  | (l, w) :: fs, h => by
    have hl : l < k := h (l, w) List.mem_cons_self
    rw [insert, if_neg (String.ne_of_lt hl).symm, if_neg (String.lt_asymm hl),
      insert_eq_append fun e he => h e (List.mem_cons_of_mem _ he)]
    rfl

theorem extend_of_sorted : ∀ {l fs : List (String × Value)}, Sorted (fs ++ l) →
    extend fs l = fs ++ l
  | [], fs, _ => (List.append_nil fs).symm
  | e :: l, fs, h => by
    have hlast : ∀ f ∈ fs, f.1 < e.1 := fun f hf =>
      (List.pairwise_append.mp h).2.2 f hf e List.mem_cons_self
    have hstep : extend fs (e :: l) = extend (insert fs e.1 e.2) l := rfl
    rw [hstep, insert_eq_append hlast, extend_of_sorted (by rwa [List.append_assoc]),
      List.append_assoc]
    rfl

/-- Fields in order are their own. -/
theorem ofList_of_sorted {fs : Fields} (h : fs.Sorted) : ofList fs = fs := by
  have hextend : extend [] fs = [] ++ fs := extend_of_sorted h
  exact hextend

theorem find?_extend_of_not_mem {k : String} : ∀ {l : List (String × Value)} {fs : Fields},
    (∀ e ∈ l, e.1 ≠ k) → find? (extend fs l) k = find? fs k
  | [], _, _ => rfl
  | e :: l, fs, h => by
    have hrest : find? (extend (insert fs e.1 e.2) l) k = find? (insert fs e.1 e.2) k :=
      find?_extend_of_not_mem fun f hf => h f (List.mem_cons_of_mem _ hf)
    exact hrest.trans (find?_insert_of_ne e.2 (h e List.mem_cons_self).symm fs)

theorem find?_extend_of_mem {k : String} {v : Value} : ∀ {l : List (String × Value)}
    {fs : Fields}, (l.map Prod.fst).Nodup → (k, v) ∈ l → find? (extend fs l) k = some v
  | e :: l, fs, hn, hm => by
    obtain ⟨he, hl⟩ := List.nodup_cons.mp hn
    rcases List.mem_cons.mp hm with rfl | hm
    · have hrest : find? (extend (insert fs k v) l) k = find? (insert fs k v) k :=
        find?_extend_of_not_mem fun f hf heq => he (List.mem_map.mpr ⟨f, hf, heq⟩)
      exact hrest.trans (find?_insert_self k v fs)
    · have hrest : find? (extend (insert fs e.1 e.2) l) k = some v := find?_extend_of_mem hl hm
      exact hrest

/-- Fields of a list that has no key twice hold the pairs of the list and nothing else. -/
theorem find?_ofList {l : List (String × Value)} (hn : (l.map Prod.fst).Nodup) (k : String)
    (v : Value) : find? (ofList l) k = some v ↔ (k, v) ∈ l := by
  refine ⟨fun h => ?_, find?_extend_of_mem hn⟩
  by_cases hk : ∃ e ∈ l, e.1 = k
  · obtain ⟨⟨l', w⟩, he, rfl⟩ := hk
    have hw : find? (ofList l) l' = some w := find?_extend_of_mem hn he
    rw [h] at hw
    rwa [Option.some.inj hw]
  · have hnone : find? (extend [] l) k = find? [] k :=
      find?_extend_of_not_mem fun e he heq => hk ⟨e, he, heq⟩
    have hsome : find? (extend [] l) k = some v := h
    rw [hnone] at hsome
    cases hsome

end Fields

end CallContract.Json
