import CallContract.Proofs.Path.Locate
import Mathlib.Data.List.Nodup

/-!
# Names that are bound along keys

A pattern is plain if it takes objects apart along names only, and names have literals as defaults
only. Each name that it binds has an address : the position of the argument and the keys on the way
(`Pattern.leaves_eq`). If no name is bound twice and no address is given two names, the variables of
a function are the bound names as they stand : none is dropped for another
(`Variables.ofPatterns_eq`).
-/

namespace CallContract

/-! ## Plain patterns -/

namespace Pattern

mutual

/-- A pattern that takes objects apart along names without points, and whose names have literals as
defaults, if they have one. -/
def Plain : Pattern → Prop
  | ident _ => True
  | object properties => PlainProperties properties
  | withDefault (ident _) (.literal _) => True
  | withDefault (object properties) _ => PlainProperties properties
  | _ => False

/-- Properties that are called by names without points, and have plain patterns. -/
def PlainProperties : List PropertyPattern → Prop
  | [] => True
  | .property (.ident key) value :: ps => '.' ∉ key.toList ∧ value.Plain ∧ PlainProperties ps
  | _ => False

end

end Pattern

/-- A name that is bound to what the argument at a position has along keys, with its default. -/
structure Binding where
  name : String
  position : Nat
  keys : List String
  default : Option Json.Value

namespace Pattern

mutual

/-- The names that a plain pattern binds when it is given what an argument has along keys. -/
def bindings (position : Nat) (keys : List String) : Pattern → List Binding
  | ident name => [⟨name, position, keys, none⟩]
  | object properties => propertyBindings position keys properties
  | withDefault (ident name) (.literal v) => [⟨name, position, keys, some v⟩]
  | withDefault (object properties) _ => propertyBindings position keys properties
  | _ => []

/-- The names that properties of plain patterns bind. -/
def propertyBindings (position : Nat) (keys : List String) : List PropertyPattern → List Binding
  | [] => []
  | .property (.ident key) value :: ps =>
    value.bindings position (keys ++ [key]) ++ propertyBindings position keys ps
  | _ => []

end

/-- The names that plain patterns bind, the first of them standing at a position. -/
def allBindings (position : Nat) : List Pattern → List Binding
  | [] => []
  | p :: ps => p.bindings position [] ++ allBindings (position + 1) ps

end Pattern

namespace Binding

/-- Where a name is bound. -/
def address (b : Binding) : Nat × List String := (b.position, b.keys)

/-- The path of a bound name. -/
def path (b : Binding) : ArgPath := .locate b.position b.keys

/-- What a function says about a bound name. -/
def leaf (b : Binding) : Parameter :=
  { name := b.name, path := b.path, default := b.default
    isOptional := b.default.map fun _ => true }

end Binding

namespace Pattern

variable {i : Nat}

mutual

theorem leaves_eq : ∀ {p : Pattern} {keys : List String}, p.Plain →
    p.leaves (.locate i keys) = (p.bindings i keys).map Binding.leaf
  | .ident name, keys, _ => by
    rw [leaves, bindings]
    rfl
  | .object ps, keys, h => by
    rw [leaves, bindings, propertyLeaves_eq (by rwa [Plain] at h)]
  | .withDefault (.ident name) (.literal v), keys, _ => by
    rw [leaves, bindings]
    rfl
  | .withDefault (.object ps) value, keys, h => by
    rw [leaves, bindings, leaves, propertyLeaves_eq (by rwa [Plain] at h)]
    exact fun _ heq => by cases heq

theorem propertyLeaves_eq : ∀ {ps : List PropertyPattern} {keys : List String},
    PlainProperties ps →
      propertyLeaves ps (.locate i keys) = (propertyBindings i keys ps).map Binding.leaf
  | [], keys, _ => by
    rw [propertyLeaves, propertyBindings]
    rfl
  | .property (.ident key) value :: ps, keys, h => by
    rw [PlainProperties] at h
    rw [propertyLeaves, propertyBindings, List.map_append, PropertyKey.segment,
      ← ArgPath.locate_concat, leaves_eq h.2.1, propertyLeaves_eq h.2.2]

end

mutual

theorem keys_of_mem_bindings : ∀ {p : Pattern} {keys : List String}, p.Plain →
    (∀ key ∈ keys, '.' ∉ key.toList) →
      ∀ b ∈ p.bindings i keys, ∀ key ∈ b.keys, '.' ∉ key.toList
  | .ident name, keys, _, hkeys => by
    rw [bindings]
    exact List.forall_mem_singleton.mpr hkeys
  | .object ps, keys, h, hkeys => by
    rw [bindings]
    exact keys_of_mem_propertyBindings (by rwa [Plain] at h) hkeys
  | .withDefault (.ident name) (.literal v), keys, _, hkeys => by
    rw [bindings]
    exact List.forall_mem_singleton.mpr hkeys
  | .withDefault (.object ps) value, keys, h, hkeys => by
    rw [bindings]
    exact keys_of_mem_propertyBindings (by rwa [Plain] at h) hkeys

theorem keys_of_mem_propertyBindings : ∀ {ps : List PropertyPattern} {keys : List String},
    PlainProperties ps → (∀ key ∈ keys, '.' ∉ key.toList) →
      ∀ b ∈ propertyBindings i keys ps, ∀ key ∈ b.keys, '.' ∉ key.toList
  | [], keys, _, _ => by
    rw [propertyBindings]
    exact fun _ h => (List.not_mem_nil h).elim
  | .property (.ident key) value :: ps, keys, h, hkeys => by
    rw [PlainProperties] at h
    have hmore : ∀ k ∈ keys ++ [key], '.' ∉ k.toList := fun k hk =>
      (List.mem_append.mp hk).elim (hkeys k) fun hk => List.mem_singleton.mp hk ▸ h.1
    rw [propertyBindings]
    intro b hb
    rcases List.mem_append.mp hb with hb | hb
    · exact keys_of_mem_bindings h.2.1 hmore b hb
    · exact keys_of_mem_propertyBindings h.2.2 hkeys b hb

end

theorem allLeaves_eq : ∀ {i : Nat} {ps : List Pattern}, (∀ p ∈ ps, p.Plain) →
    allLeaves i ps = (allBindings i ps).map Binding.leaf
  | _, [], _ => rfl
  | i, p :: ps, h => by
    obtain ⟨hp, hps⟩ := List.forall_mem_cons.mp h
    rw [allLeaves, allBindings, List.map_append, ← ArgPath.locate_nil, leaves_eq hp,
      allLeaves_eq hps]

/-- No key on the way to a bound name has a point in it. -/
theorem keys_of_mem_allBindings : ∀ {i : Nat} {ps : List Pattern}, (∀ p ∈ ps, p.Plain) →
    ∀ b ∈ allBindings i ps, ∀ key ∈ b.keys, '.' ∉ key.toList
  | _, [], _ => fun _ h => (List.not_mem_nil h).elim
  | i, p :: ps, h => by
    obtain ⟨hp, hps⟩ := List.forall_mem_cons.mp h
    intro b hb
    rcases List.mem_append.mp hb with hb | hb
    · exact keys_of_mem_bindings hp (fun _ hk => (List.not_mem_nil hk).elim) b hb
    · exact keys_of_mem_allBindings hps b hb

end Pattern

/-! ## Variables -/

namespace Variables

variable {vars : Variables}

/-- Variables whose paths differ do not share one. -/
theorem collapseShared_eq_self (hkeys : vars.keys.Nodup)
    (hpaths : (vars.map fun e => e.2.path).Nodup) : collapseShared vars = vars := by
  refine foldl_induction (S := (· = vars)) (fun vars' name heq => ?_) _ rfl
  subst heq
  unfold dropShared
  split
  · rfl
  · rename_i p hp
    have hnone : List.find? (fun e => decide (e.1 ≠ name ∧ e.2.path = p.path)) vars' = none := by
      refine List.find?_eq_none.mpr fun e he hshared => ?_
      obtain ⟨hne, hpath⟩ := of_decide_eq_true hshared
      have heq := List.inj_on_of_nodup_map hpaths he (Table.mem_of_find? hp) hpath
      exact hne (congrArg Prod.fst heq)
    rw [hnone]
    split <;> rfl

/-- Variables without another name fall back on none. -/
theorem collapseFallbacks_eq_self (hnames : ∀ e ∈ vars, e.2.otherName = none) :
    collapseFallbacks vars = vars := by
  refine foldl_induction (S := (· = vars)) (fun vars' name heq => ?_) _ rfl
  subst heq
  have hnone : (vars'.find? name).bind Parameter.otherName = none := by
    cases hp : vars'.find? name with
    | none => rfl
    | some p => exact hnames _ (Table.mem_of_find? hp)
  rw [dropFallback, hnone]

/-- The variables of plain patterns are the names that they bind. -/
theorem ofPatterns_eq {ps : List Pattern} (hplain : ∀ p ∈ ps, p.Plain)
    (hnames : ((Pattern.allBindings 0 ps).map Binding.name).Nodup)
    (haddresses : ((Pattern.allBindings 0 ps).map Binding.address).Nodup) :
    ofPatterns ps = (Pattern.allBindings 0 ps).map fun b => (b.name, b.leaf) := by
  have hleaves : (Pattern.allLeaves 0 ps).map (fun p => (p.name, p)) =
      (Pattern.allBindings 0 ps).map fun b => (b.name, b.leaf) := by
    rw [Pattern.allLeaves_eq hplain, List.map_map]
    rfl
  have hkeys : (Table.keys ((Pattern.allBindings 0 ps).map fun b => (b.name, b.leaf))).Nodup := by
    rw [Table.keys, List.map_map]
    exact hnames
  have hpaths : (((Pattern.allBindings 0 ps).map fun b => (b.name, b.leaf)).map
      fun e => e.2.path).Nodup := by
    rw [List.map_map]
    refine List.Nodup.map_on (fun b hb c hc heq => ?_) (haddresses.of_map _)
    have hinj := (ArgPath.locate_inj (Pattern.keys_of_mem_allBindings hplain b hb)
      (Pattern.keys_of_mem_allBindings hplain c hc)).mp heq
    exact List.inj_on_of_nodup_map haddresses hb hc (Prod.ext hinj.1 hinj.2)
  rw [ofPatterns, hleaves, Table.ofList_of_nodup hkeys, collapseShared_eq_self hkeys hpaths,
    collapseFallbacks_eq_self]
  intro e he
  obtain ⟨b, _, rfl⟩ := List.mem_map.mp he
  rfl

end Variables

end CallContract
