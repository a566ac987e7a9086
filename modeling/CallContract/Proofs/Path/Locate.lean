import CallContract.Proofs.Path.Position

/-!
# Paths of keys without points

The path of keys behind a position has the position and the keys between its points
(`ArgPath.toList_locate`). If no key has a point in it, the path is cut back into them, so it tells
the position and the keys apart from all others (`ArgPath.locate_inj`).
-/

namespace CallContract

namespace Text

theorem pieces_of_not_mem {sep : Char} : ∀ {s : List Char}, sep ∉ s → pieces sep s = [s]
  | [], _ => rfl
  | c :: s, h => by
    rw [List.mem_cons, not_or] at h
    rw [pieces, if_neg (Ne.symm h.1), pieces_of_not_mem h.2]

theorem pieces_append_sep {sep : Char} (t : List Char) : ∀ {s : List Char}, sep ∉ s →
    pieces sep (s ++ sep :: t) = s :: pieces sep t
  | [], _ => by rw [List.nil_append, pieces, if_pos rfl]
  | c :: s, h => by
    rw [List.mem_cons, not_or] at h
    rw [List.cons_append, pieces, if_neg (Ne.symm h.1), pieces_append_sep t h.2]

theorem not_mem_of_mem_pieces {sep : Char} : ∀ {s p : List Char}, p ∈ pieces sep s → sep ∉ p
  | [], p, h => by
    rw [List.mem_singleton.mp h]
    exact List.not_mem_nil
  | c :: s, p, h => by
    by_cases hc : c = sep
    · rw [pieces, if_pos hc] at h
      rcases List.mem_cons.mp h with rfl | h
      · exact List.not_mem_nil
      · exact not_mem_of_mem_pieces h
    · obtain ⟨q, qs, hq⟩ := List.exists_cons_of_ne_nil (pieces_ne_nil sep s)
      have ih : ∀ p ∈ q :: qs, sep ∉ p := fun p hp => not_mem_of_mem_pieces (hq ▸ hp)
      obtain ⟨hfirst, hrest⟩ := List.forall_mem_cons.mp ih
      rw [pieces, if_neg hc, hq] at h
      rcases List.mem_cons.mp h with rfl | h
      · rw [List.mem_cons, not_or]
        exact ⟨Ne.symm hc, hfirst⟩
      · exact hrest p h

theorem join_cons_cons (sep p q : List Char) (ps : List (List Char)) :
    join sep (p :: q :: ps) = p ++ sep ++ join sep (q :: ps) := rfl

/-- Texts without the separator are the pieces of what joins them. -/
theorem pieces_join {sep : Char} : ∀ {p : List Char} {ps : List (List Char)},
    (∀ q ∈ p :: ps, sep ∉ q) → pieces sep (join [sep] (p :: ps)) = p :: ps
  | p, [], h => pieces_of_not_mem (h p List.mem_cons_self)
  | p, q :: ps, h => by
    obtain ⟨hp, hps⟩ := List.forall_mem_cons.mp h
    rw [join_cons_cons, List.append_assoc, List.singleton_append, pieces_append_sep _ hp,
      pieces_join hps]

end Text

namespace ArgPath

/-- The path of keys behind a position. -/
def locate (position : Nat) (keys : List String) : ArgPath := keys.foldl child (root position)

@[simp] theorem locate_nil (i : Nat) : locate i [] = root i := rfl

theorem locate_concat (i : Nat) (keys : List String) (key : String) :
    locate i (keys ++ [key]) = (locate i keys).child key := List.foldl_concat ..

theorem toList_foldl_child : ∀ (keys : List String) (p : ArgPath),
    (keys.foldl child p).text.toList =
      Text.join ['.'] (p.text.toList :: keys.map String.toList)
  | [], _ => rfl
  | [key], p => by
    rw [List.foldl_cons, List.foldl_nil, toList_child]
    simp [Text.join]
  | key :: key' :: keys, p => by
    rw [List.foldl_cons, toList_foldl_child (key' :: keys), toList_child]
    simp [Text.join]

theorem toList_locate (i : Nat) (keys : List String) : (locate i keys).text.toList =
    Text.join ['.'] ((root i).text.toList :: keys.map String.toList) :=
  toList_foldl_child keys (root i)

theorem pieces_locate (i : Nat) {keys : List String} (h : ∀ key ∈ keys, '.' ∉ key.toList) :
    Text.pieces '.' (locate i keys).text.toList =
      (root i).text.toList :: keys.map String.toList := by
  rw [toList_locate, Text.pieces_join]
  refine List.forall_mem_cons.mpr ⟨point_not_mem_root i, fun q hq => ?_⟩
  obtain ⟨key, hkey, rfl⟩ := List.mem_map.mp hq
  exact h key hkey

/-- Keys without points behind a position are told by their path. -/
theorem locate_inj {i j : Nat} {keys keys' : List String} (h : ∀ key ∈ keys, '.' ∉ key.toList)
    (h' : ∀ key ∈ keys', '.' ∉ key.toList) :
    locate i keys = locate j keys' ↔ i = j ∧ keys = keys' := by
  refine ⟨fun heq => ?_, fun ⟨hi, hkeys⟩ => by rw [hi, hkeys]⟩
  have hpieces := pieces_locate i h
  rw [heq, pieces_locate j h'] at hpieces
  obtain ⟨hroot, hkeys⟩ := List.cons.inj hpieces
  have hinj : Function.Injective String.toList := fun _ _ => String.toList_injective
  exact ⟨root_injective (eq_of_toList hroot.symm), List.map_injective_iff.mpr hinj hkeys.symm⟩

end ArgPath

end CallContract
