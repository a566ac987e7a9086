import CallContract.Leaves
import CallContract.Proofs.Table

/-!
# Variables of patterns

`Pattern.Leaf p path leaf` says that the pattern `p` binds a name with the row `leaf` when it is
given the value at `path`. Variables are the names that patterns bind, of which some are dropped
and others take over a name or a default. No name stands twice among them
(`Variables.nodup_ofPatterns`), and a property of all bound names that survives what is taken
over holds of all variables (`Variables.forall_ofPatterns`).
-/

namespace CallContract

/-! ## Bound names -/

namespace Pattern

/-- The names that a pattern binds, each with its row. -/
inductive Leaf : Pattern → ArgPath → Parameter → Prop
  | ident {x : String} {path : ArgPath} : Leaf (.ident x) path { name := x, path }
  | rest {p : Pattern} {path : ArgPath} {leaf : Parameter} :
    Leaf p path leaf → Leaf (.rest p) path leaf.asRest
  | property {ps : List PropertyPattern} {k : PropertyKey} {p : Pattern} {path : ArgPath}
    {leaf : Parameter} : .property k p ∈ ps → Leaf p (path.child k.segment) leaf →
      Leaf (.object ps) path leaf
  | nameDefault {x : String} {value : DefaultExpr} {path : ArgPath} :
    Leaf (.withDefault (.ident x) value) path (value.apply { name := x, path })
  | withDefault {p : Pattern} {value : DefaultExpr} {path : ArgPath} {leaf : Parameter} :
    (∀ x, p ≠ .ident x) → Leaf p path leaf → Leaf (.withDefault p value) path leaf

mutual

theorem leaf_of_mem_leaves : ∀ {p : Pattern} {path : ArgPath},
    ∀ leaf ∈ p.leaves path, p.Leaf path leaf
  | .ident name, path => by
    intro leaf h
    rw [leaves, List.mem_singleton] at h
    subst h
    exact .ident
  | .rest target, path => by
    intro leaf h
    rw [leaves] at h
    obtain ⟨p, hp, rfl⟩ := List.mem_map.mp h
    exact .rest (leaf_of_mem_leaves p hp)
  | .object ps, path => by
    intro leaf h
    rw [leaves] at h
    obtain ⟨k, p, hp, hleaf⟩ := leaf_of_mem_propertyLeaves leaf h
    exact .property hp hleaf
  | .withDefault target value, path => by
    intro leaf h
    have ih : ∀ leaf ∈ target.leaves path, target.Leaf path leaf := leaf_of_mem_leaves
    cases target with
    | ident name =>
      rw [leaves, List.mem_singleton] at h
      subst h
      exact .nameDefault
    | _ =>
      rw [leaves] at h
      · exact .withDefault (fun _ heq => by cases heq) (ih leaf h)
      · exact fun _ heq => by cases heq
  | .array es, path => by
    intro leaf h
    rw [leaves] at h
    exact (List.not_mem_nil h).elim
  | .unsupported s, path => by
    intro leaf h
    rw [leaves] at h
    exact (List.not_mem_nil h).elim

theorem leaf_of_mem_propertyLeaves : ∀ {ps : List PropertyPattern} {path : ArgPath},
    ∀ leaf ∈ propertyLeaves ps path,
      ∃ k p, .property k p ∈ ps ∧ p.Leaf (path.child k.segment) leaf
  | [], _ => fun _ h => by rw [propertyLeaves] at h; cases h
  | .property key value :: ps, path => by
    intro leaf h
    rw [propertyLeaves] at h
    rcases List.mem_append.mp h with h | h
    · exact ⟨key, value, List.mem_cons_self, leaf_of_mem_leaves leaf h⟩
    · obtain ⟨k, p, hp, hleaf⟩ := leaf_of_mem_propertyLeaves leaf h
      exact ⟨k, p, List.mem_cons_of_mem _ hp, hleaf⟩
  | .rest _ :: ps, path => by
    intro leaf h
    rw [propertyLeaves] at h
    obtain ⟨k, p, hp, hleaf⟩ := leaf_of_mem_propertyLeaves leaf h
    exact ⟨k, p, List.mem_cons_of_mem _ hp, hleaf⟩

end

/-- Each row belongs to one of the patterns, at its position. -/
theorem leaf_of_mem_allLeaves : ∀ {ps : List Pattern} {position : Nat},
    ∀ leaf ∈ allLeaves position ps,
      ∃ (i : Nat) (p : Pattern), ps[i]? = some p ∧ p.Leaf (.root (position + i)) leaf
  | [], _ => fun _ h => (List.not_mem_nil h).elim
  | p :: ps, position => by
    intro leaf h
    rcases List.mem_append.mp h with h | h
    · exact ⟨0, p, rfl, leaf_of_mem_leaves leaf h⟩
    · obtain ⟨i, q, hq, hleaf⟩ := leaf_of_mem_allLeaves leaf h
      rw [Nat.add_right_comm] at hleaf
      exact ⟨i + 1, q, hq, hleaf⟩

end Pattern

/-! ## Variables -/

namespace Variables

/-- A property of parameters that neither another name nor an inherited default can break. -/
structure Stable (Q : Parameter → Prop) : Prop where
  otherName : ∀ p n, Q p → Q { p with otherName := n }
  inherit : ∀ p q, Q p → Q q →
    Q { p with
      default := p.default.orElse fun _ => q.default
      isOptional := p.isOptional.orElse fun _ => q.isOptional }

variable {Q : Parameter → Prop} {vars : Variables}

theorem nodup_dropShared (name : String) (h : vars.keys.Nodup) :
    (dropShared vars name).keys.Nodup := by
  unfold dropShared
  split
  · exact h
  split
  · split
    · exact h
    · rw [Table.keys_modify]
      exact Table.nodup_erase name h
  · exact h

theorem nodup_dropFallback (name : String) (h : vars.keys.Nodup) :
    (dropFallback vars name).keys.Nodup := by
  unfold dropFallback
  split
  · exact h
  split
  · exact h
  split
  · exact h
  · rw [Table.keys_modify]
    exact Table.nodup_erase _ h

theorem forall_dropShared (hQ : Stable Q) (name : String) (h : ∀ e ∈ vars, Q e.2) :
    ∀ e ∈ dropShared vars name, Q e.2 := by
  unfold dropShared
  split
  · exact h
  split
  · split
    · exact h
    · intro e he
      rcases Table.mem_modify he with he | ⟨p, hp, heq⟩
      · exact h e ((Table.erase_sublist name vars).subset he)
      · rw [heq]
        exact hQ.otherName p _ (h _ ((Table.erase_sublist name vars).subset hp))
  · exact h

theorem forall_dropFallback (hQ : Stable Q) (name : String) (h : ∀ e ∈ vars, Q e.2) :
    ∀ e ∈ dropFallback vars name, Q e.2 := by
  unfold dropFallback
  split
  · exact h
  split
  · exact h
  split
  · exact h
  · rename_i f hf
    intro e he
    rcases Table.mem_modify he with he | ⟨p, hp, heq⟩
    · exact h e ((Table.erase_sublist _ vars).subset he)
    · rw [heq]
      have hkept := (Table.erase_sublist _ vars).subset hp
      exact hQ.inherit p f (h _ hkept) (h _ (Table.mem_of_find? hf))

/-- What a step keeps is kept by going through all names. -/
theorem foldl_induction {S : Variables → Prop} {step : Variables → String → Variables}
    (hstep : ∀ vars name, S vars → S (step vars name)) :
    ∀ (names : List String) {vars : Variables}, S vars → S (names.foldl step vars)
  | [], _, h => h
  | name :: names, _, h => foldl_induction hstep names (hstep _ name h)

theorem nodup_ofPatterns (params : List Pattern) : (ofPatterns params).keys.Nodup := by
  refine foldl_induction (S := fun vars => vars.keys.Nodup)
    (fun _ name => nodup_dropFallback name) _ ?_
  refine foldl_induction (S := fun vars => vars.keys.Nodup)
    (fun _ name => nodup_dropShared name) _ ?_
  exact Table.nodup_ofList _

theorem forall_ofPatterns (hQ : Stable Q) {params : List Pattern}
    (h : ∀ p ∈ Pattern.allLeaves 0 params, Q p) : ∀ e ∈ ofPatterns params, Q e.2 := by
  refine foldl_induction (S := fun vars => ∀ e ∈ vars, Q e.2)
    (fun _ name => forall_dropFallback hQ name) _ ?_
  refine foldl_induction (S := fun vars => ∀ e ∈ vars, Q e.2)
    (fun _ name => forall_dropShared hQ name) _ ?_
  intro e he
  obtain ⟨p, hp, rfl⟩ := List.mem_map.mp (Table.mem_ofList he)
  exact h p hp

end Variables

end CallContract
