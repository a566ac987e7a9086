import CallContract.Source.Checked.Access
import Mathlib.Tactic.SplitIfs

/-!
# Places between characters

What is read by offset, seen as text : `LeftAt text pos s` says that `s` is left of `text` at
byte `pos`. There the byte of an ASCII character is the character (`LeftAt.byte?_of_lt`), and no
byte of another character is ASCII (`le_of_mem_bytesOfChar`), so what goes over such bytes one by
one comes to the end of the character (`LeftAt.skip_char`). Between two such places there is a
stretch of the text (`LeftAt.stretch?`).
-/

namespace CallContract.Source.Checked

/-! ## Computations whose checks hold -/

section Runs

variable {ε ε' α β : Type}

theorem ok_bind (a : α) (f : α → Except ε β) : (Except.ok a >>= f) = f a := rfl

@[simp] theorem of_ok_bind (a : α) (f : α → Checked ε β) : (of (.ok a) >>= f) = f a := rfl

@[simp] theorem lift_bind (a : α) (f : α → Checked ε β) :
    ((liftM (some a) : Checked ε α) >>= f) = f a := rfl

@[simp] theorem attempt_of (x : Except ε α) : (attempt (of x) : Checked ε' _) = of (.ok x) := rfl

theorem subtract?_of_le {a b : Nat} (h : b ≤ a) : subtract? a b = some (a - b) := if_pos h

theorem further?_of_lt {size pos next : Nat} (hpos : pos < size) (h : pos < next) :
    further? size pos next = some ⟨next, Nat.sub_lt_sub_left hpos h⟩ := dif_pos _

end Runs

/-! ## Bytes of characters -/

theorem bytesOfChar_of_lt {c : Char} (h : c.toNat < 0x80) : bytesOfChar c = [c] := by
  have hle : c.val.toNat ≤ 127 := Nat.lt_succ_iff.mp h
  have hmod : c.toNat % 2 ^ 8 = c.toNat := Nat.mod_eq_of_lt (by omega)
  rw [bytesOfChar, String.utf8EncodeChar, if_pos hle, List.map_singleton, UInt8.toNat_ofNat']
  exact congrArg (· :: []) ((congrArg Char.ofNat hmod).trans (Char.ofNat_toNat c))

theorem toNat_ofNat_byte (b : UInt8) : (Char.ofNat b.toNat).toNat = b.toNat := by
  have hvalid : b.toNat.isValidChar := Or.inl (Nat.lt_trans b.toNat_lt (by decide))
  rw [Char.ofNat, dif_pos hvalid]
  rfl

theorem le_of_mem_bytesOfChar {c b : Char} (h : 0x80 ≤ c.toNat) (hb : b ∈ bytesOfChar c) :
    0x80 ≤ b.toNat := by
  have hle : ¬c.val.toNat ≤ 127 := Nat.not_le.mpr h
  obtain ⟨u, hu, rfl⟩ := List.mem_map.mp hb
  rw [toNat_ofNat_byte]
  have hbyte (n : Nat) (h : 128 ≤ n % 2 ^ 8) : 128 ≤ (UInt8.ofNat n).toNat := by
    rwa [UInt8.toNat_ofNat']
  rw [String.utf8EncodeChar, if_neg hle] at hu
  split_ifs at hu <;> simp only [List.mem_cons, List.not_mem_nil, or_false] at hu
  · rcases hu with rfl | rfl <;> exact hbyte _ (by omega)
  · rcases hu with rfl | rfl | rfl <;> exact hbyte _ (by omega)
  · rcases hu with rfl | rfl | rfl | rfl <;> exact hbyte _ (by omega)

theorem length_bytesOfChar (c : Char) : (bytesOfChar c).length = c.utf8Size := by
  rw [bytesOfChar, List.length_map, String.length_utf8EncodeChar]

theorem utf8Size_of_lt {c : Char} (h : c.toNat < 0x80) : c.utf8Size = 1 := by
  rw [← length_bytesOfChar, bytesOfChar_of_lt h]
  rfl

theorem bytesOf_cons (c : Char) (s : List Char) : bytesOf (c :: s) = bytesOfChar c ++ bytesOf s :=
  List.flatMap_cons

theorem bytesOf_append (s t : List Char) : bytesOf (s ++ t) = bytesOf s ++ bytesOf t :=
  List.flatMap_append

theorem length_bytesOf : ∀ s : List Char, (bytesOf s).length = width s
  | [] => rfl
  | c :: s => by rw [bytesOf_cons, List.length_append, length_bytesOfChar, length_bytesOf s, width]

/-! ## Places -/

/-- What is left of a text at a byte. -/
def LeftAt (text : List Char) (pos : Nat) (s : List Char) : Prop :=
  ∃ front, text = front ++ s ∧ pos = width front

section LeftAt

variable {text s : List Char} {pos : Nat} {c : Char}

theorem LeftAt.start (text : List Char) : LeftAt text 0 text := ⟨[], rfl, rfl⟩

theorem LeftAt.append {u : List Char} (h : LeftAt text pos (u ++ s)) :
    LeftAt text (pos + width u) s := by
  obtain ⟨front, rfl, rfl⟩ := h
  exact ⟨front ++ u, (List.append_assoc ..).symm, (width_append ..).symm⟩

theorem LeftAt.tail (h : LeftAt text pos (c :: s)) : LeftAt text (pos + c.utf8Size) s :=
  LeftAt.append (u := [c]) h

theorem LeftAt.tail_of_lt (h : LeftAt text pos (c :: s)) (hc : c.toNat < 0x80) :
    LeftAt text (pos + 1) s := utf8Size_of_lt hc ▸ h.tail

theorem LeftAt.drop (h : LeftAt text pos s) (n : Nat) :
    LeftAt text (pos + width (s.take n)) (s.drop n) :=
  LeftAt.append (by rwa [List.take_append_drop])

theorem width_take_add (s : List Char) (m n : Nat) :
    width (s.take (m + n)) = width (s.take m) + width ((s.drop m).take n) := by
  rw [List.take_add, width_append]

theorem LeftAt.add_width (h : LeftAt text pos s) : pos + width s = width text := by
  obtain ⟨front, rfl, rfl⟩ := h
  rw [width_append]

theorem LeftAt.lt (h : LeftAt text pos (c :: s)) : pos < width text := by
  have hc := Char.utf8Size_pos c
  rw [← h.add_width, width_cons]
  omega

theorem LeftAt.not_lt (h : LeftAt text pos []) : ¬pos < width text := by
  rw [← h.add_width, width_nil]
  exact Nat.lt_irrefl pos

/-- Two bytes on from a backslash at the end there is nothing. -/
theorem LeftAt.not_add_two_lt (h : LeftAt text pos ['\\']) : ¬pos + 2 < width text := by
  rw [← h.add_width]
  exact Nat.not_lt.mpr (Nat.add_le_add_left (by decide) pos)

/-- The stretch of what is left up to another place. -/
theorem LeftAt.stretch? {u : List Char} (h : LeftAt text pos (u ++ s)) :
    Source.stretch? text pos (pos + width u) = some u := by
  obtain ⟨front, rfl, rfl⟩ := h
  exact stretch?_width front u s

theorem LeftAt.stretch?_take (h : LeftAt text pos s) (n : Nat) :
    Source.stretch? text pos (pos + width (s.take n)) = some (s.take n) :=
  LeftAt.stretch? (s := s.drop n) (by rwa [List.take_append_drop])

theorem LeftAt.rest? (h : LeftAt text pos s) : Checked.rest? text pos = some s := by
  rw [Checked.rest?, ← h.add_width]
  exact LeftAt.stretch? (s := []) (by rwa [List.append_nil])

/-- Inside a character there is no place. -/
example : Checked.rest? ['é', '/'] 1 = none := by decide

theorem LeftAt.drop_bytesOf (h : LeftAt text pos s) : (bytesOf text).drop pos = bytesOf s := by
  obtain ⟨front, rfl, rfl⟩ := h
  rw [bytesOf_append, ← length_bytesOf, List.drop_left]

end LeftAt

/-! ## Bytes at places -/

theorem lt_of_byte? {text : List Char} {pos : Nat} {b : Char} (h : byte? text pos = some b) :
    pos < width text := by
  rw [← length_bytesOf]
  exact (List.getElem?_eq_some_iff.mp h).1

/-- A byte that is not ASCII is no ASCII character. -/
theorem ne_of_le {a b : Char} (hb : 0x80 ≤ b.toNat) (ha : a.toNat < 0x80) : b ≠ a := by
  rintro rfl
  omega

theorem byte?_of_drop {text bs : List Char} {pos : Nat} {b : Char}
    (h : (bytesOf text).drop pos = b :: bs) : byte? text pos = some b := by
  rw [byte?, ← List.head?_drop, h]
  rfl

section Bytes

variable {text s : List Char} {pos : Nat} {c : Char}

theorem LeftAt.byte?_of_lt (h : LeftAt text pos (c :: s)) (hc : c.toNat < 0x80) :
    byte? text pos = some c := by
  have hdrop := h.drop_bytesOf
  rw [bytesOf_cons, bytesOfChar_of_lt hc] at hdrop
  exact byte?_of_drop hdrop

theorem LeftAt.byte?_nil (h : LeftAt text pos []) : byte? text pos = none := by
  rw [byte?, List.getElem?_eq_none]
  rw [length_bytesOf]
  exact Nat.not_lt.mp h.not_lt

theorem LeftAt.exists_byte? (h : LeftAt text pos (c :: s)) (hc : 0x80 ≤ c.toNat) :
    ∃ b, byte? text pos = some b ∧ 0x80 ≤ b.toNat := by
  have hdrop := h.drop_bytesOf
  have hsize := Char.utf8Size_pos c
  rw [← length_bytesOfChar] at hsize
  obtain ⟨b, bs, hbs⟩ := List.exists_cons_of_length_pos hsize
  rw [bytesOf_cons, hbs] at hdrop
  exact ⟨b, byte?_of_drop hdrop, le_of_mem_bytesOfChar hc (hbs ▸ List.mem_cons_self)⟩

/-- The byte at a place is compared with ASCII characters as the character is. -/
theorem LeftAt.exists_byte?_eq (h : LeftAt text pos (c :: s)) :
    ∃ b, byte? text pos = some b ∧ ∀ a : Char, a.toNat < 0x80 → (b = a ↔ c = a) := by
  rcases Nat.lt_or_ge c.toNat 0x80 with hc | hc
  · exact ⟨c, h.byte?_of_lt hc, fun _ _ => Iff.rfl⟩
  · obtain ⟨b, hb, hle⟩ := h.exists_byte? hc
    exact ⟨b, hb, fun a ha => iff_of_false (ne_of_le hle ha) (ne_of_le hc ha)⟩

/-- The byte at a place is an ASCII character exactly if that is the character there. -/
theorem LeftAt.byte?_eq_iff (h : LeftAt text pos s) {a : Char} (ha : a.toNat < 0x80) :
    byte? text pos = some a ↔ s.head? = some a := by
  match s, h with
  | [], h => simp [h.byte?_nil]
  | c :: s, h =>
    obtain ⟨b, hb, hba⟩ := h.exists_byte?_eq
    simp [hb, hba a ha]

variable {α : Type} {f : Nat → α}

/-- What goes over bytes from U+0080 on one by one goes over many of them. -/
theorem skip_bytes (hf : ∀ pos b, byte? text pos = some b → 0x80 ≤ b.toNat → f pos = f (pos + 1)) :
    ∀ {bs rest : List Char} {pos : Nat}, (∀ b ∈ bs, 0x80 ≤ b.toNat) →
      (bytesOf text).drop pos = bs ++ rest → f pos = f (pos + bs.length)
  | [], _, _, _, _ => rfl
  | b :: bs, rest, pos, hwide, hdrop => by
    have hnext : (bytesOf text).drop (pos + 1) = bs ++ rest := by
      rw [← List.drop_drop, hdrop, List.cons_append, List.drop_one, List.tail_cons]
    rw [hf pos b (byte?_of_drop hdrop) (hwide b List.mem_cons_self),
      skip_bytes hf (fun a ha => hwide a (List.mem_cons_of_mem _ ha)) hnext, List.length_cons,
      Nat.add_assoc, Nat.add_comm 1]

/-- It goes over a character beyond ASCII. -/
theorem LeftAt.skip_char (h : LeftAt text pos (c :: s)) (hc : 0x80 ≤ c.toNat)
    (hf : ∀ pos b, byte? text pos = some b → 0x80 ≤ b.toNat → f pos = f (pos + 1)) :
    f pos = f (pos + c.utf8Size) := by
  rw [← length_bytesOfChar]
  exact skip_bytes hf (fun b hb => le_of_mem_bytesOfChar hc hb)
    (h.drop_bytesOf.trans (bytesOf_cons ..))

/-- It comes to the end of a character of which it has gone over the first byte. -/
theorem LeftAt.skip_rest (h : LeftAt text pos (c :: s))
    (hf : ∀ pos b, byte? text pos = some b → 0x80 ≤ b.toNat → f pos = f (pos + 1)) :
    f (pos + 1) = f (pos + c.utf8Size) := by
  rcases Nat.lt_or_ge c.toNat 0x80 with hc | hc
  · rw [utf8Size_of_lt hc]
  have hsize := Char.utf8Size_pos c
  have hdrop := h.drop_bytesOf
  rw [← length_bytesOfChar] at hsize
  obtain ⟨b, bs, hbs⟩ := List.exists_cons_of_length_pos hsize
  have hnext : (bytesOf text).drop (pos + 1) = bs ++ bytesOf s := by
    rw [← List.drop_drop, hdrop, bytesOf_cons, hbs, List.cons_append, List.drop_one,
      List.tail_cons]
  have hwide (a : Char) (ha : a ∈ bs) : 0x80 ≤ a.toNat :=
    le_of_mem_bytesOfChar hc (hbs ▸ List.mem_cons_of_mem _ ha)
  rw [skip_bytes hf hwide hnext, ← length_bytesOfChar, hbs, List.length_cons, Nat.add_assoc,
    Nat.add_comm 1]

/-- Two bytes on, what goes over bytes from U+0080 on is behind an escaped character. -/
theorem LeftAt.skip_escaped {d : Char} (h : LeftAt text pos ('\\' :: d :: s))
    (hf : ∀ pos b, byte? text pos = some b → 0x80 ≤ b.toNat → f pos = f (pos + 1)) :
    f (pos + 2) = f (pos + width ['\\', d]) := by
  have hnext : LeftAt text (pos + 1) (d :: s) := h.tail_of_lt (by decide)
  exact (hnext.skip_rest hf).trans (by rw [Nat.add_assoc]; rfl)

end Bytes

end CallContract.Source.Checked
