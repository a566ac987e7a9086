import CallContract.Proofs.Json.RoundTrip
import CallContract.Proofs.Table
import CallContract.Stored.Record

/-!
# Records are read back

A record is written as an object with its parts in order. Reading finds the parts again if
their names are among the names of the record in their order (`Stored.parts?_object`), and each
part is read on its own : one that has to be there (`Parts.required?_eq`), one that may be
missing (`Parts.optional?_eq_some_iff`). Lists and tables are read back if their items are
(`Stored.mapM_map_eq_some_iff`, `Stored.table?_table_iff`).
-/

namespace CallContract

namespace Stored

open Json (Node Value escape)

variable {α : Type}

/-! ## Writing -/

/-- The parts of a record by their names, of which some may be missing. -/
abbrev Slots := Table String (Option Node)

/-- The parts that are there. -/
def present (slots : Slots) : Parts := slots.filterMap fun e => e.2.map fun n => (e.1, n)

/-- The fields that parts are written as. -/
def spelled (ps : Parts) : List Entry := ps.map fun e => (escape e.1.toList, e.2)

theorem spelled_present_append (s t : Slots) :
    spelled (present (s ++ t)) = spelled (present s) ++ spelled (present t) := by
  rw [present, List.filterMap_append, spelled, List.map_append]
  rfl

theorem entry_eq (name : String) (n : Node) :
    entry name n = spelled (present [(name, some n)]) := rfl

theorem entry?_eq (name : String) (f : α → Node) (a : Option α) :
    entry? name f a = spelled (present [(name, a.map f)]) := by
  cases a <;> rfl

theorem names_present : ∀ slots : Slots,
    List.Sublist ((present slots).map Prod.fst) (slots.map Prod.fst)
  | [] => List.Sublist.refl []
  | (name, none) :: slots => (names_present slots).cons name
  | (name, some _) :: slots => (names_present slots).cons_cons name

/-- A part is found where its slot has it. -/
theorem find?_present {name : String} : ∀ {slots : Slots} {n : Option Node},
    (slots.map Prod.fst).Nodup → slots.find? name = some n → Table.find? (present slots) name = n
  | (other, m) :: slots, n, hn, h => by
    obtain ⟨hother, hrest⟩ := List.nodup_cons.mp hn
    have hcons : present ((other, m) :: slots) =
        (m.map fun n => (other, n)).toList ++ present slots := by
      cases m <;> rfl
    rw [Table.find?] at h
    rw [hcons, Table.find?_append]
    split at h
    · rename_i heq
      obtain rfl := Option.some.inj h
      have hnone : Table.find? (present slots) name = none := by
        rw [← Option.not_isSome_iff_eq_none, ← Table.mem_keys_iff]
        exact fun hm => hother (heq ▸ (names_present slots).subset hm)
      cases m with
      | none => exact hnone
      | some m => simp [Table.find?, heq]
    · rename_i hne
      rw [find?_present hrest h]
      cases m with
      | none => rfl
      | some m => simp [Table.find?, hne]

theorem wellFormed_spelled {ps : Parts} (h : ∀ e ∈ ps, e.2.WellFormed) :
    (Node.object (spelled ps)).WellFormed := by
  rw [Node.WellFormed, Node.wellFormedFields_iff]
  intro e he
  obtain ⟨p, hp, rfl⟩ := List.mem_map.mp he
  exact ⟨Json.closed_escape _, h p hp⟩

theorem wellFormed_string (s : String) : (string s).WellFormed := Json.closed_escape s.toList

theorem wellFormed_bool (b : Bool) : (Node.bool b).WellFormed := trivial

theorem wellFormed_of_mem_map {f : α → Node} (h : ∀ a, (f a).WellFormed) (a : Option α) :
    ∀ n ∈ a.map f, n.WellFormed := by
  intro n hn
  obtain ⟨b, _, rfl⟩ := Option.map_eq_some_iff.mp hn
  exact h b

theorem wellFormed_present {slots : Slots} (h : ∀ e ∈ slots, ∀ n ∈ e.2, n.WellFormed) :
    (Node.object (spelled (present slots))).WellFormed := by
  refine wellFormed_spelled fun e he => ?_
  obtain ⟨⟨name, n⟩, hs, hn⟩ := List.mem_filterMap.mp he
  obtain ⟨m, hm, rfl⟩ := Option.map_eq_some_iff.mp hn
  exact h _ hs m hm

/-! ## Reading -/

theorem string?_string (s : String) : string? (string s) = some s := Value.unquote?_escape s

theorem fields?_spelled (ps : Parts) : fields? some (spelled ps) = some ps := by
  unfold fields?
  induction ps with
  | nil => rfl
  | cons e ps ih =>
    rw [spelled, List.map_cons, List.mapM_cons, ← spelled, ih, Value.unquote?_escape]
    rfl

theorem known?_eq {names : List String} {ps : Parts} (hs : List.Sublist (ps.map Prod.fst) names)
    (hn : names.Nodup) : known? names ps = some ps := by
  have hall : ps.filter (fun e => names.contains e.1) = ps := by
    refine List.filter_eq_self.mpr fun e he => ?_
    rw [List.contains_iff_mem]
    exact hs.subset (List.mem_map_of_mem he)
  rw [known?, hall, if_pos (hn.sublist hs)]

/-- The parts of a record are found again. -/
theorem parts?_object {slots : Slots} {depth : Nat} (hd : 0 < depth)
    (hn : (slots.map Prod.fst).Nodup) :
    parts? (slots.map Prod.fst) depth (.object (spelled (present slots))) =
      some (present slots) := by
  rw [parts?, if_neg (by omega), fields?_spelled, Option.bind_some,
    known?_eq (names_present slots) hn]

theorem Parts.required?_eq {ps : Parts} {name : String} {read : Node → Option α} {n : Node}
    {a : α} (hfind : ps.find? name = some n) (hread : read n = some a) :
    ps.required? name read = some a := by
  rw [Parts.required?, hfind, Option.bind_some, hread]

/-- A part that may be missing is read back, and null would be read as missing. -/
theorem Parts.optional?_eq_some_iff {ps : Parts} {name : String} {read : Node → Option α}
    {f : α → Node} {a : Option α} (hfind : ps.find? name = a.map f) :
    ps.optional? name read = some a ↔ ∀ b, a = some b → f b ≠ .null ∧ read (f b) = some b := by
  unfold Parts.optional?
  rw [hfind]
  cases a with
  | none => simp
  | some b =>
    simp only [Option.map_some, Option.some.injEq, forall_eq']
    split
    · rename_i h
      cases h
    · rename_i h
      simp [Option.some.inj h]
    · rename_i n hn h
      obtain rfl := Option.some.inj h
      simp only [ne_eq, Option.map_eq_some_iff, Option.some.injEq, exists_eq_right]
      exact (and_iff_right hn).symm

theorem Parts.optional?_string {ps : Parts} {name : String} {a : Option String}
    (hfind : ps.find? name = a.map string) : ps.optional? name string? = some a :=
  (Parts.optional?_eq_some_iff hfind).mpr fun b _ =>
    ⟨Node.noConfusion, string?_string b⟩

/-- A list is read back exactly if all its items are. -/
theorem mapM_map_eq_some_iff {f : α → Node} {read : Node → Option α} : ∀ {l : List α},
    (l.map f).mapM read = some l ↔ ∀ a ∈ l, read (f a) = some a
  | [] => by simp
  | a :: l => by
    rw [List.map_cons, List.mapM_cons]
    have ih : (l.map f).mapM read = some l ↔ _ := mapM_map_eq_some_iff
    constructor
    · intro h
      obtain ⟨b, hb, h⟩ := Option.bind_eq_some_iff.mp h
      obtain ⟨m, hm, h⟩ := Option.bind_eq_some_iff.mp h
      obtain ⟨rfl, rfl⟩ := List.cons.inj (Option.some.inj h)
      exact List.forall_mem_cons.mpr ⟨hb, ih.mp hm⟩
    · intro h
      obtain ⟨ha, hl⟩ := List.forall_mem_cons.mp h
      rw [ha, ih.mpr hl]
      rfl

theorem list?_list_iff {f : α → Node} {read : Nat → Node → Option α} {depth : Nat}
    (hd : 0 < depth) {l : List α} :
    list? read depth (list f l) = some l ↔ ∀ a ∈ l, read (depth - 1) (f a) = some a := by
  rw [list, list?, if_neg (by omega), mapM_map_eq_some_iff]

theorem keys_of_fields? {f : α → Node} {read : Node → Option α} :
    ∀ {t l : List (String × α)},
      fields? read (t.map fun e => (escape e.1.toList, f e.2)) = some l →
        l.map Prod.fst = t.map Prod.fst
  | [], l, h => by
    obtain rfl := Option.some.inj h
    rfl
  | e :: t, l, h => by
    rw [fields?, List.map_cons, List.mapM_cons, Value.unquote?_escape] at h
    obtain ⟨p, hp, h⟩ := Option.bind_eq_some_iff.mp h
    obtain ⟨m, hm, h⟩ := Option.bind_eq_some_iff.mp h
    obtain rfl := Option.some.inj h
    split at hp
    · rename_i hk _
      obtain rfl := Option.some.inj hp
      rw [List.map_cons, List.map_cons, keys_of_fields? hm, Option.some.inj hk]
    · cases hp

theorem fields?_eq_some_iff {f : α → Node} {read : Node → Option α} :
    ∀ {t : List (String × α)},
      fields? read (t.map fun e => (escape e.1.toList, f e.2)) = some t ↔
        ∀ e ∈ t, read (f e.2) = some e.2
  | [] => by simp [fields?]
  | e :: t => by
    have ih : fields? read (t.map fun e => (escape e.1.toList, f e.2)) = some t ↔ _ :=
      fields?_eq_some_iff
    rw [fields?] at ih ⊢
    rw [List.map_cons, List.mapM_cons, Value.unquote?_escape, List.forall_mem_cons, ← ih]
    simp only
    constructor
    · intro h
      obtain ⟨p, hp, h⟩ := Option.bind_eq_some_iff.mp h
      obtain ⟨m, hm, h⟩ := Option.bind_eq_some_iff.mp h
      obtain ⟨rfl, rfl⟩ := List.cons.inj (Option.some.inj h)
      split at hp
      · rename_i hk ha
        obtain rfl := Option.some.inj hk
        exact ⟨by rw [ha, ← congrArg Prod.snd (Option.some.inj hp)], hm⟩
      · cases hp
    · rintro ⟨ha, ht⟩
      rw [ha, ht]
      rfl

/-- A table that has no key twice is read back exactly if all its values are. -/
theorem table?_table_iff {f : α → Node} {read : Nat → Node → Option α} {depth : Nat}
    (hd : 0 < depth) {t : Table String α} (ht : t.keys.Nodup) :
    table? read depth (table f t) = some t ↔
      ∀ e ∈ t, read (depth - 1) (f e.2) = some e.2 := by
  rw [table, table?, if_neg (by omega), ← fields?_eq_some_iff]
  constructor
  · intro h
    obtain ⟨l, hl, heq⟩ := Option.map_eq_some_iff.mp h
    have hkeys : Table.keys l = Table.keys t := keys_of_fields? hl
    rw [Table.ofList_of_nodup (hkeys ▸ ht)] at heq
    rw [hl, heq]
  · intro h
    rw [h, Option.map_some, Table.ofList_of_nodup ht]

end Stored

end CallContract
