import CallContract.Proofs.Json.Fields
import CallContract.Proofs.Json.Spelling

/-!
# Values are read back

A value is proper (`Value.Proper`) if its integers are those of JSON numbers and its fields are
in order. All values that are read are proper (`Value.proper_of_read?`), and a proper value is
read back from its node exactly if it nests no deeper than the reader goes and each of its
doubles is read back from its numeral (`Value.ofNode?_node_iff`).
-/

namespace CallContract.Json

/-- A double that is read from its numeral. The reader rounds more than once, so some are not. -/
def Number.ReadsBack (x : Binary64) : Prop := Number.read? x.numeral = some (.double x)

example : (Binary64.ofDecimal? false 73879 (-24)).map (fun x =>
    decide (Number.read? x.numeral = some (.double x))) = some false := by decide +kernel

namespace Value

mutual

/-- How deep arrays and objects nest in a value. -/
def nesting : Value → Nat
  | .null => 0
  | .bool _ => 0
  | .number _ => 0
  | .string _ => 0
  | .array items => itemsNesting items + 1
  | .object fields => fieldsNesting fields + 1

/-- How deep arrays and objects nest in items. -/
def itemsNesting : List Value → Nat
  | [] => 0
  | v :: vs => max v.nesting (itemsNesting vs)

/-- How deep arrays and objects nest in fields. -/
def fieldsNesting : List (String × Value) → Nat
  | [] => 0
  | (_, v) :: fs => max v.nesting (fieldsNesting fs)

end

mutual

/-- The doubles in a value. -/
def doubles : Value → List Binary64
  | .null => []
  | .bool _ => []
  | .number (.integer _) => []
  | .number (.double x) => [x]
  | .string _ => []
  | .array items => itemsDoubles items
  | .object fields => fieldsDoubles fields

/-- The doubles in items. -/
def itemsDoubles : List Value → List Binary64
  | [] => []
  | v :: vs => v.doubles ++ itemsDoubles vs

/-- The doubles in fields. -/
def fieldsDoubles : List (String × Value) → List Binary64
  | [] => []
  | (_, v) :: fs => v.doubles ++ fieldsDoubles fs

end

mutual

/-- A value of JSON : its integers are in range and its fields in order. -/
def Proper : Value → Prop
  | .null => True
  | .bool _ => True
  | .number (.integer i) => Number.InRange i
  | .number (.double _) => True
  | .string _ => True
  | .array items => ProperItems items
  | .object fields => Fields.Sorted fields ∧ ProperFields fields

/-- Items that are proper. -/
def ProperItems : List Value → Prop
  | [] => True
  | v :: vs => v.Proper ∧ ProperItems vs

/-- Fields with proper values. -/
def ProperFields : List (String × Value) → Prop
  | [] => True
  | (_, v) :: fs => v.Proper ∧ ProperFields fs

end

theorem properFields_iff : ∀ {fs : List (String × Value)},
    ProperFields fs ↔ ∀ f ∈ fs, f.2.Proper
  | [] => by simp [ProperFields]
  | (k, v) :: fs => by simp [ProperFields, properFields_iff]

/-! ## Writing -/

mutual

theorem wellFormed_node : ∀ v : Value, v.node.WellFormed
  | .null => trivial
  | .bool _ => trivial
  | .number n => n.wellFormed_numeral
  | .string s => closed_escape s.toList
  | .array items => wellFormed_nodes items
  | .object fields => wellFormed_fieldNodes fields

theorem wellFormed_nodes : ∀ vs : List Value, Node.WellFormedItems (nodes vs)
  | [] => trivial
  | v :: vs => ⟨wellFormed_node v, wellFormed_nodes vs⟩

theorem wellFormed_fieldNodes : ∀ fs : List (String × Value), Node.WellFormedFields (fieldNodes fs)
  | [] => trivial
  | (k, v) :: fs => ⟨closed_escape k.toList, wellFormed_node v, wellFormed_fieldNodes fs⟩

end

/-! ## Reading -/

theorem unquote?_escape (s : String) : unquote? (escape s.toList) = some s := by
  rw [unquote?, unescape?_escape, Option.map_some, String.ofList_toList]

theorem proper_ofList {l : List (String × Value)} (h : ProperFields l) :
    (Value.object (Fields.ofList l)).Proper := by
  have hmem : ∀ (l : List (String × Value)) {fs : Fields}, (∀ f ∈ l, f.2.Proper) →
      (∀ f ∈ fs, f.2.Proper) → ∀ f ∈ Fields.extend fs l, f.2.Proper := by
    intro l
    induction l with
    | nil => exact fun _ hfs => hfs
    | cons e l ih =>
      intro fs hl hfs
      refine ih (fun f hf => hl f (List.mem_cons_of_mem _ hf)) fun f hf => ?_
      rcases Fields.mem_insert hf with rfl | hf
      · exact hl e List.mem_cons_self
      · exact hfs f hf
  refine ⟨Fields.sorted_ofList l, properFields_iff.mpr ?_⟩
  exact hmem l (properFields_iff.mp h) fun _ hf => (List.not_mem_nil hf).elim

mutual

theorem proper_of_ofNode? : ∀ {depth : Nat} {n : Node} {v : Value},
    ofNode? depth n = some v → v.Proper
  | _, .null, v, h => by
    obtain rfl := Option.some.inj h
    trivial
  | _, .bool _, v, h => by
    obtain rfl := Option.some.inj h
    trivial
  | _, .number n, v, h => by
    obtain ⟨m, hm, rfl⟩ := Option.map_eq_some_iff.mp h
    cases m with
    | integer i => exact Number.inRange_of_read? hm
    | double x => trivial
  | _, .string s, v, h => by
    obtain ⟨t, _, rfl⟩ := Option.map_eq_some_iff.mp h
    trivial
  | depth, .array ns, v, h => by
    rw [ofNode?] at h
    split at h
    · simp at h
    · obtain ⟨vs, hvs, rfl⟩ := Option.map_eq_some_iff.mp h
      exact proper_of_ofNodes? hvs
  | depth, .object fs, v, h => by
    rw [ofNode?] at h
    split at h
    · simp at h
    · obtain ⟨l, hl, rfl⟩ := Option.map_eq_some_iff.mp h
      exact proper_ofList (proper_of_ofFields? hl)

theorem proper_of_ofNodes? : ∀ {depth : Nat} {ns : List Node} {vs : List Value},
    ofNodes? depth ns = some vs → ProperItems vs
  | _, [], vs, h => by
    obtain rfl := Option.some.inj h
    trivial
  | depth, n :: ns, vs, h => by
    rw [ofNodes?] at h
    split at h
    · rename_i hv hvs
      obtain rfl := Option.some.inj h
      exact ⟨proper_of_ofNode? hv, proper_of_ofNodes? hvs⟩
    · simp at h

theorem proper_of_ofFields? : ∀ {depth : Nat} {fs : List (List Char × Node)}
    {l : List (String × Value)}, ofFields? depth fs = some l → ProperFields l
  | _, [], l, h => by
    obtain rfl := Option.some.inj h
    trivial
  | depth, (k, n) :: fs, l, h => by
    rw [ofFields?] at h
    split at h
    · rename_i hv hl
      obtain rfl := Option.some.inj h
      exact ⟨proper_of_ofNode? hv, proper_of_ofFields? hl⟩
    · simp at h

end

/-- What is read off a text is a value of JSON. -/
theorem proper_of_read? {s : List Char} {v : Value} (h : read? s = some v) : v.Proper := by
  obtain ⟨n, _, hn⟩ := Option.bind_eq_some_iff.mp h
  exact proper_of_ofNode? hn

/-! ## Reading what was written -/

theorem keys_of_ofFields? {depth : Nat} : ∀ {fs l : List (String × Value)},
    ofFields? depth (fieldNodes fs) = some l → l.map Prod.fst = fs.map Prod.fst
  | [], l, h => by
    obtain rfl := Option.some.inj h
    rfl
  | (k, v) :: fs, l, h => by
    rw [fieldNodes, ofFields?, unquote?_escape] at h
    split at h
    · rename_i hk _ hl
      obtain rfl := Option.some.inj hk
      obtain rfl := Option.some.inj h
      rw [List.map_cons, List.map_cons, keys_of_ofFields? hl]
    · simp at h

mutual

/-- A proper value is read back from its node exactly if it is not too deep and all its doubles
are read back. -/
theorem ofNode?_node_iff : ∀ {v : Value} {depth : Nat}, v.Proper →
    (ofNode? depth v.node = some v ↔
      v.nesting ≤ depth ∧ ∀ x ∈ v.doubles, Number.ReadsBack x)
  | .null, depth, _ => by simp [node, ofNode?, nesting, doubles]
  | .bool _, depth, _ => by simp [node, ofNode?, nesting, doubles]
  | .number (.integer i), depth, h => by
    simp [node, ofNode?, nesting, doubles, Number.read?_numeral_integer h]
  | .number (.double x), depth, _ => by
    simp [node, ofNode?, nesting, doubles, Number.ReadsBack, Number.numeral]
  | .string s, depth, _ => by simp [node, ofNode?, nesting, doubles, unquote?_escape]
  | .array items, depth, h => by
    rw [node, ofNode?, nesting, doubles]
    by_cases hd : depth = 0
    · simp [hd]
    · have ih : ofNodes? (depth - 1) (nodes items) = some items ↔ _ := ofNodes?_nodes_iff h
      have hle : itemsNesting items + 1 ≤ depth ↔ itemsNesting items ≤ depth - 1 := by omega
      rw [if_neg hd, hle, ← ih]
      simp
  | .object fields, depth, h => by
    rw [node, ofNode?, nesting, doubles]
    by_cases hd : depth = 0
    · simp [hd]
    · have ih : ofFields? (depth - 1) (fieldNodes fields) = some fields ↔ _ :=
        ofFields?_fieldNodes_iff h.2
      have hle : fieldsNesting fields + 1 ≤ depth ↔ fieldsNesting fields ≤ depth - 1 := by omega
      rw [if_neg hd, hle, ← ih]
      constructor
      · intro hread
        obtain ⟨l, hl, heq⟩ := Option.map_eq_some_iff.mp hread
        have hkeys := keys_of_ofFields? hl
        have hsorted : Fields.Sorted l := by
          have := List.pairwise_map.mpr h.1
          rw [← hkeys] at this
          exact List.pairwise_map.mp this
        rw [Fields.ofList_of_sorted hsorted] at heq
        rw [hl, Value.object.inj heq]
      · intro hread
        rw [hread, Option.map_some, Fields.ofList_of_sorted h.1]

theorem ofNodes?_nodes_iff : ∀ {vs : List Value} {depth : Nat}, ProperItems vs →
    (ofNodes? depth (nodes vs) = some vs ↔
      itemsNesting vs ≤ depth ∧ ∀ x ∈ itemsDoubles vs, Number.ReadsBack x)
  | [], depth, _ => by simp [nodes, ofNodes?, itemsNesting, itemsDoubles]
  | v :: vs, depth, h => by
    have hv : ofNode? depth v.node = some v ↔ _ := ofNode?_node_iff h.1
    have hvs : ofNodes? depth (nodes vs) = some vs ↔ _ := ofNodes?_nodes_iff h.2
    rw [nodes, ofNodes?, itemsNesting, itemsDoubles, Nat.max_le]
    simp only [List.forall_mem_append]
    rw [and_and_and_comm, ← hv, ← hvs]
    constructor
    · intro hread
      split at hread
      · rename_i hv hvs
        obtain ⟨rfl, rfl⟩ := List.cons.inj (Option.some.inj hread)
        exact ⟨hv, hvs⟩
      · cases hread
    · intro hread
      rw [hread.1, hread.2]

theorem ofFields?_fieldNodes_iff : ∀ {fs : List (String × Value)} {depth : Nat},
    ProperFields fs → (ofFields? depth (fieldNodes fs) = some fs ↔
      fieldsNesting fs ≤ depth ∧ ∀ x ∈ fieldsDoubles fs, Number.ReadsBack x)
  | [], depth, _ => by simp [fieldNodes, ofFields?, fieldsNesting, fieldsDoubles]
  | (k, v) :: fs, depth, h => by
    have hv : ofNode? depth v.node = some v ↔ _ := ofNode?_node_iff h.1
    have hfs : ofFields? depth (fieldNodes fs) = some fs ↔ _ := ofFields?_fieldNodes_iff h.2
    rw [fieldNodes, ofFields?, fieldsNesting, fieldsDoubles, Nat.max_le, unquote?_escape]
    simp only [List.forall_mem_append]
    rw [and_and_and_comm, ← hv, ← hfs]
    constructor
    · intro hread
      split at hread
      · rename_i hv hfs
        obtain ⟨heq, rfl⟩ := List.cons.inj (Option.some.inj hread)
        obtain ⟨_, rfl⟩ := Prod.mk.inj heq
        exact ⟨hv, hfs⟩
      · cases hread
    · intro hread
      rw [hread.1, hread.2]

end

end Value

end CallContract.Json
