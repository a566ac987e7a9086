import CallContract.Proofs.Stored.Record
import CallContract.Stored.Contract

/-!
# Contracts are read back

All parts of a stored parameter are read back but its default (`Parameter.ofNode?_node_iff`) :
null is read as no default, and values that nest too deep or hold a double that is not read
back are lost. Contracts whose variables have no name twice are read back from their text, in
either form, exactly if all their defaults are restored (`contractsOfText?_text_iff`).
-/

namespace CallContract

open Stored
open Json (Node Value)

/-- A default that is read back as it is, when it may nest to a depth. -/
def Json.Value.Restored (depth : Nat) (v : Value) : Prop :=
  v.node ≠ .null ∧ Value.ofNode? depth v.node = some v

/-- A proper value is restored unless it is null, nests too deep or holds a double that is not
read back. -/
theorem Json.Value.restored_iff {v : Value} (h : v.Proper) (depth : Nat) :
    v.Restored depth ↔
      v ≠ .null ∧ v.nesting ≤ depth ∧ ∀ x ∈ v.doubles, Json.Number.ReadsBack x := by
  have hnull : v.node ≠ .null ↔ v ≠ .null := by
    cases v <;> simp [Value.node]
  rw [Restored, hnull, Value.ofNode?_node_iff h]

namespace Parameter

/-- The parts of a stored parameter. -/
def slots (p : Parameter) : Slots :=
  [("name", some (string p.name)), ("path", some (string p.path.text)),
    ("alias", p.otherName.map string), ("default", p.default.map Value.node),
    ("description", p.description.map string), ("type", p.type.map string),
    ("isOptional", p.isOptional.map Node.bool),
    ("structure", p.shape.map fun s => string s.name), ("contains", p.element.map string),
    ("rest", if p.isRest then some (.bool true) else none)]

theorem node_eq (p : Parameter) : p.node = .object (spelled (present p.slots)) := by
  have hrest : (if p.isRest then entry "rest" (.bool true) else []) =
      spelled (present [("rest", if p.isRest then some (.bool true) else none)]) := by
    cases p.isRest <;> rfl
  rw [node, hrest]
  simp only [entry_eq, entry?_eq, ← spelled_present_append]
  rfl

theorem nodup_slots (p : Parameter) : (p.slots.map Prod.fst).Nodup := by
  have hnames : partNames.Nodup := by decide
  exact hnames

theorem oneOf?_name (depth : Nat) (s : Shape) :
    oneOf? Shape.all Shape.name depth (string s.name) = some s := by
  rw [string, oneOf?, Value.unquote?_escape, Option.bind_some]
  cases s <;> rfl

/-- A stored parameter is read back exactly if its default is restored. -/
theorem ofNode?_node_iff (p : Parameter) {depth : Nat} (hd : 0 < depth) :
    ofNode? depth p.node = some p ↔ ∀ v, p.default = some v → v.Restored (depth - 1) := by
  have hparts : parts? partNames depth (.object (spelled (present p.slots))) =
      some (present p.slots) := parts?_object hd p.nodup_slots
  have hfind : ∀ {k : String} {n : Option Node}, p.slots.find? k = some n →
      Table.find? (present p.slots) k = n := find?_present p.nodup_slots
  have hname : Parts.required? (present p.slots) "name" string? = some p.name :=
    Parts.required?_eq (hfind rfl) (string?_string p.name)
  have hpath : Parts.required? (present p.slots) "path" string? = some p.path.text :=
    Parts.required?_eq (hfind rfl) (string?_string p.path.text)
  have halias : Parts.optional? (present p.slots) "alias" string? = some p.otherName :=
    Parts.optional?_string (hfind rfl)
  have hdescription :
      Parts.optional? (present p.slots) "description" string? = some p.description :=
    Parts.optional?_string (hfind rfl)
  have htype : Parts.optional? (present p.slots) "type" string? = some p.type :=
    Parts.optional?_string (hfind rfl)
  have helement : Parts.optional? (present p.slots) "contains" string? = some p.element :=
    Parts.optional?_string (hfind rfl)
  have hoptional : Parts.optional? (present p.slots) "isOptional" bool? = some p.isOptional :=
    (Parts.optional?_eq_some_iff (hfind rfl)).mpr fun b _ => ⟨Node.noConfusion, rfl⟩
  have hshape :
      Parts.optional? (present p.slots) "structure" (oneOf? Shape.all Shape.name (depth - 1)) =
        some p.shape :=
    (Parts.optional?_eq_some_iff (f := fun s : Shape => string s.name) (hfind rfl)).mpr
      fun s _ => ⟨Node.noConfusion, oneOf?_name _ s⟩
  have hrest : Parts.orElse? (present p.slots) "rest" false bool? = some p.isRest := by
    have hfound :
        Table.find? (present p.slots) "rest" = if p.isRest then some (.bool true) else none :=
      hfind rfl
    rw [Parts.orElse?, hfound]
    cases p.isRest <;> rfl
  have hdefault :
      Parts.optional? (present p.slots) "default" (Value.ofNode? (depth - 1)) = some p.default ↔
        ∀ v, p.default = some v → v.Restored (depth - 1) :=
    Parts.optional?_eq_some_iff (hfind rfl)
  rw [← hdefault, node_eq, ofNode?, hparts]
  simp only [Option.bind_eq_bind, Option.bind_some, hname, hpath, halias, hdescription, htype,
    helement, hoptional, hshape, hrest]
  constructor
  · intro h
    obtain ⟨d, hd, h⟩ := Option.bind_eq_some_iff.mp h
    rw [hd, ← congrArg Parameter.default (Option.some.inj h)]
  · intro h
    rw [h, Option.bind_some]

end Parameter

namespace Contract

/-- The parts of a stored contract. -/
def slots (c : Contract) : Slots :=
  [("name", some (string c.name)), ("description", c.description.map string),
    ("vars", some (table Parameter.node c.vars))]

theorem node_eq (c : Contract) : c.node = .object (spelled (present c.slots)) := by
  rw [node]
  simp only [entry_eq, entry?_eq, ← spelled_present_append]
  rfl

theorem nodup_slots (c : Contract) : (c.slots.map Prod.fst).Nodup := by
  have hnames : ["name", "description", "vars"].Nodup := by decide
  exact hnames

/-- A stored contract is read back exactly if all its variables are. -/
theorem ofNode?_node_iff (c : Contract) (hkeys : c.vars.keys.Nodup) {depth : Nat}
    (hd : 1 < depth) :
    ofNode? depth c.node = some c ↔
      ∀ e ∈ c.vars, Parameter.ofNode? (depth - 2) e.2.node = some e.2 := by
  have hparts : parts? ["name", "description", "vars"] depth
      (.object (spelled (present c.slots))) = some (present c.slots) :=
    parts?_object (by omega) c.nodup_slots
  have hfind : ∀ {k : String} {n : Option Node}, c.slots.find? k = some n →
      Table.find? (present c.slots) k = n := find?_present c.nodup_slots
  have hname : Parts.required? (present c.slots) "name" string? = some c.name :=
    Parts.required?_eq (hfind rfl) (string?_string c.name)
  have hdescription :
      Parts.optional? (present c.slots) "description" string? = some c.description :=
    Parts.optional?_string (hfind rfl)
  have hfound : Parts.required? (present c.slots) "vars" (table? Parameter.ofNode? (depth - 1)) =
      table? Parameter.ofNode? (depth - 1) (table Parameter.node c.vars) := by
    rw [Parts.required?, hfind (n := some (table Parameter.node c.vars)) rfl, Option.bind_some]
  have hvars : table? Parameter.ofNode? (depth - 1) (table Parameter.node c.vars) =
      some c.vars ↔ _ := table?_table_iff (by omega) hkeys
  rw [Nat.sub_sub] at hvars
  rw [← hvars, node_eq, ofNode?, hparts]
  simp only [Option.bind_eq_bind, Option.bind_some, hname, hdescription, hfound]
  constructor
  · intro h
    obtain ⟨vars, hread, h⟩ := Option.bind_eq_some_iff.mp h
    rw [hread, ← congrArg Contract.vars (Option.some.inj h)]
  · intro h
    rw [h, Option.bind_some]

end Contract

/-- Contracts are read back from their stored form exactly if the defaults of all their
variables are restored. Lists, records and tables take four levels of nesting. -/
theorem contractsOfNode?_node_iff {cs : List Contract} (hkeys : ∀ c ∈ cs, c.vars.keys.Nodup) :
    contractsOfNode? Value.maxDepth (contractsNode cs) = some cs ↔
      ∀ c ∈ cs, ∀ e ∈ c.vars, ∀ v, e.2.default = some v → v.Restored 123 := by
  rw [contractsOfNode?, contractsNode, list?_list_iff (by decide)]
  refine forall₂_congr fun c hc => ?_
  rw [Contract.ofNode?_node_iff c (hkeys c hc) (by decide)]
  refine forall₂_congr fun e _ => ?_
  exact Parameter.ofNode?_node_iff e.2 (by decide)

/-! ## The text of contracts -/

theorem Parameter.wellFormed_node (p : Parameter) : p.node.WellFormed := by
  rw [p.node_eq]
  refine wellFormed_present ?_
  have hstring := wellFormed_of_mem_map wellFormed_string
  have hone : ∀ s : String, ∀ n ∈ some (string s), n.WellFormed := fun s => hstring (some s)
  have hshape := wellFormed_of_mem_map (f := fun s : Shape => string s.name) fun s =>
    wellFormed_string s.name
  have hrest : ∀ n ∈ if p.isRest then some (Node.bool true) else none, n.WellFormed := by
    intro n hn
    split at hn
    · exact Option.some.inj hn ▸ wellFormed_bool true
    · cases hn
  simp only [slots, List.forall_mem_cons]
  refine ⟨hone p.name, hone p.path.text, hstring p.otherName,
    wellFormed_of_mem_map Value.wellFormed_node p.default, hstring p.description, hstring p.type,
    wellFormed_of_mem_map wellFormed_bool p.isOptional,
    hshape p.shape, hstring p.element,
    hrest, fun _ he => (List.not_mem_nil he).elim⟩

theorem Contract.wellFormed_node (c : Contract) : c.node.WellFormed := by
  rw [c.node_eq]
  refine wellFormed_present ?_
  have hstring := wellFormed_of_mem_map wellFormed_string
  have hone : ∀ s : String, ∀ n ∈ some (string s), n.WellFormed := fun s => hstring (some s)
  simp only [slots, List.forall_mem_cons]
  refine ⟨hone c.name, hstring c.description, fun n hn => ?_,
    fun _ he => (List.not_mem_nil he).elim⟩
  obtain rfl := Option.some.inj hn
  rw [table, Node.WellFormed, Node.wellFormedFields_iff]
  intro f hf
  obtain ⟨e, _, rfl⟩ := List.mem_map.mp hf
  exact ⟨Json.closed_escape _, e.2.wellFormed_node⟩

theorem wellFormed_contractsNode (cs : List Contract) : (contractsNode cs).WellFormed := by
  rw [contractsNode, list, Node.WellFormed, Node.wellFormedItems_iff]
  intro n hn
  obtain ⟨c, _, rfl⟩ := List.mem_map.mp hn
  exact c.wellFormed_node

/-- Contracts whose variables have no name twice are read back from their text exactly if all
defaults are restored. -/
theorem contractsOfText?_text_iff {cs : List Contract} (hkeys : ∀ c ∈ cs, c.vars.keys.Nodup)
    (indented : Bool) :
    contractsOfText? (contractsText cs indented) = some cs ↔
      ∀ c ∈ cs, ∀ e ∈ c.vars, ∀ v, e.2.default = some v → v.Restored 123 := by
  rw [contractsOfText?, contractsText, Node.read?_text (wellFormed_contractsNode cs),
    Option.bind_some, contractsOfNode?_node_iff hkeys]

end CallContract
