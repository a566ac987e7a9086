/-!
# Tables in order of arrival

A table is a list of key-value pairs. `Table.insert` on a key that is there replaces the
value and moves nothing; a new key goes to the end. `Table.erase` keeps the order of the
other keys. Every lookup sees the first pair of its key.
-/

namespace CallContract

/-- Key-value pairs in order of first arrival. -/
abbrev Table (κ α : Type) := List (κ × α)

namespace Table

variable {κ α : Type} [DecidableEq κ]

/-- The value stored under `k`. -/
def find? : Table κ α → κ → Option α
  | [], _ => none
  | (k', v) :: t, k => if k' = k then some v else find? t k

/-- Whether `k` is a key. -/
def contains (t : Table κ α) (k : κ) : Bool := (find? t k).isSome

/-- Stores `v` under `k`, in place if `k` is a key and at the end if not. -/
def insert : Table κ α → κ → α → Table κ α
  | [], k, v => [(k, v)]
  | (k', v') :: t, k, v => if k' = k then (k', v) :: t else (k', v') :: insert t k v

/-- Stores `v` under `k` unless `k` is a key already. -/
def insertNew (t : Table κ α) (k : κ) (v : α) : Table κ α :=
  if contains t k then t else insert t k v

/-- Removes the key `k`. -/
def erase : Table κ α → κ → Table κ α
  | [], _ => []
  | (k', v) :: t, k => if k' = k then t else (k', v) :: erase t k

/-- Changes the value under `k`, if there is one. -/
def modify : Table κ α → κ → (α → α) → Table κ α
  | [], _, _ => []
  | (k', v) :: t, k, f => if k' = k then (k', f v) :: t else (k', v) :: modify t k f

/-- The keys, in order. -/
def keys (t : Table κ α) : List κ := t.map Prod.fst

/-- The values, in the order of their keys. -/
def values (t : Table κ α) : List α := t.map Prod.snd

/-- The table of the pairs of `l`, inserted in order. -/
def ofList (l : List (κ × α)) : Table κ α := l.foldl (fun t e => insert t e.1 e.2) []

@[simp] theorem find?_nil (k : κ) : find? ([] : Table κ α) k = none := rfl

/-- What was inserted is found. -/
@[simp] theorem find?_insert_self (t : Table κ α) (k : κ) (v : α) :
    find? (insert t k v) k = some v := by
  induction t with
  | nil => simp [insert, find?]
  | cons e t ih =>
    by_cases h : e.1 = k
    · simp [insert, find?, h]
    · simp [insert, find?, h, ih]

/-- Inserting leaves the other keys as they are. -/
theorem find?_insert_of_ne (t : Table κ α) {k k' : κ} (v : α) (h : k' ≠ k) :
    find? (insert t k v) k' = find? t k' := by
  induction t with
  | nil => simp [insert, find?, Ne.symm h]
  | cons e t ih =>
    by_cases he : e.1 = k
    · subst he
      simp [insert, find?, Ne.symm h]
    · simp [insert, find?, he, ih]

/-- A key is a key of the table exactly when something is stored under it. -/
theorem mem_keys_iff (t : Table κ α) (k : κ) : k ∈ keys t ↔ (find? t k).isSome = true := by
  induction t with
  | nil => simp [keys]
  | cons e t ih =>
    by_cases he : e.1 = k
    · simp [keys, find?, he]
    · simp only [keys, List.map_cons, List.mem_cons, find?, he, if_false]
      simp only [keys] at ih
      rw [← ih]
      simp [Ne.symm he]

end Table

end CallContract
