import CallContract.Proofs.Number.Numeral
import CallContract.Proofs.Path.Above
import CallContract.Proofs.Variables

/-!
# Positions of arguments in paths

The position that a path starts with is told by the path (`ArgPath.root_injective`), and has no
point in it. A name that a pattern binds has the path of the pattern or one below it
(`Pattern.Leaf.leadsTo`), and one below it if the pattern takes an object apart
(`Pattern.Leaf.isAbove`). So an argument that is taken apart is no variable
(`Pattern.not_leadsTo_of_mem_allLeaves`).
-/

namespace CallContract

/-! ## Paths of arguments -/

namespace ArgPath

theorem eq_of_toList {p q : ArgPath} (h : p.text.toList = q.text.toList) : p = q :=
  congrArg mk (String.toList_injective h)

theorem toList_root (i : Nat) : (root i).text.toList = Nat.toDigits 10 i := by
  change (Nat.repr i).toList = _
  rw [Nat.repr, String.toList_ofList]

theorem point_not_mem_root (i : Nat) : '.' ∉ (root i).text.toList := by
  intro h
  rw [toList_root] at h
  have := (isDigits_toDigits i).2 '.' h
  cases this

theorem lastKey?_root (i : Nat) : (root i).lastKey? = none := by
  rw [lastKey?, Text.splitLast_eq_none (point_not_mem_root i)]
  rfl

theorem root_injective {i j : Nat} (h : root i = root j) : i = j := by
  have hdigits : Nat.toDigits 10 i = Nat.toDigits 10 j := by
    rw [← toList_root, ← toList_root, h]
  rw [← Nat.ofDigitChars_ten_toDigits (n := i), hdigits, Nat.ofDigitChars_ten_toDigits]

theorem toList_child (p : ArgPath) (key : String) :
    (p.child key).text.toList = p.text.toList ++ '.' :: key.toList := by
  simp [child]

theorem child_ne_root (p : ArgPath) (key : String) (i : Nat) : p.child key ≠ root i := by
  intro h
  refine point_not_mem_root i ?_
  rw [← h, toList_child]
  simp

theorem isAbove_child (p : ArgPath) (key : String) : p.isAbove (p.child key) = true :=
  isAbove_iff.mpr ⟨key.toList, by simp [child]⟩

end ArgPath

/-! ## Paths of bound names -/

namespace Pattern

/-- Whether a pattern takes an object apart, be it with a default for the whole. -/
def takesApart : Pattern → Bool
  | object _ => true
  | withDefault (object _) _ => true
  | _ => false

theorem Leaf.leadsTo {p : Pattern} {path : ArgPath} {leaf : Parameter} (h : p.Leaf path leaf) :
    path.LeadsTo leaf.path := by
  induction h with
  | ident => exact Or.inl rfl
  | rest _ ih => exact ih
  | property _ _ ih => exact ArgPath.leadsTo_trans (Or.inr (ArgPath.isAbove_child _ _)) ih
  | @nameDefault x value path => exact Or.inl (by cases value <;> rfl)
  | withDefault _ _ ih => exact ih

theorem Leaf.type_eq {p : Pattern} {path : ArgPath} {leaf : Parameter} (h : p.Leaf path leaf) :
    leaf.type = none := by
  induction h with
  | ident => rfl
  | rest _ ih => exact ih
  | property _ _ ih => exact ih
  | @nameDefault x value path => cases value <;> rfl
  | withDefault _ _ ih => exact ih

/-- The names that a pattern binds which takes an object apart are below the object. -/
theorem Leaf.isAbove {p : Pattern} {path : ArgPath} {leaf : Parameter} (h : p.Leaf path leaf)
    (hp : p.takesApart = true) : path.isAbove leaf.path = true := by
  have hobject : ∀ {ps : List PropertyPattern}, (object ps).Leaf path leaf →
      path.isAbove leaf.path = true := fun hleaf => by
    cases hleaf with
    | property _ hleaf =>
      rcases hleaf.leadsTo with heq | habove
      · exact heq ▸ ArgPath.isAbove_child _ _
      · exact ArgPath.isAbove_trans (ArgPath.isAbove_child _ _) habove
  cases h with
  | property hmem hleaf => exact hobject (.property hmem hleaf)
  | withDefault _ hleaf =>
    rename_i target value hne
    cases target with
    | object ps => exact hobject hleaf
    | _ => cases hp
  | _ => cases hp

/-- An argument that is taken apart is no variable, and no variable is above it. -/
theorem not_leadsTo_of_mem_allLeaves {params : List Pattern} {i : Nat} {p : Pattern}
    (hp : params[i]? = some p) (hapart : p.takesApart = true) :
    ∀ leaf ∈ allLeaves 0 params, ¬leaf.path.LeadsTo (.root i) := by
  intro leaf hmem hleads
  obtain ⟨j, q, hq, hleaf⟩ := leaf_of_mem_allLeaves leaf hmem
  rw [Nat.zero_add] at hleaf
  rcases ArgPath.leadsTo_trans hleaf.leadsTo hleads with heq | habove
  · obtain rfl := ArgPath.root_injective heq
    obtain rfl := Option.some.inj (hq.symm.trans hp)
    have hlt := ArgPath.length_lt_of_isAbove (hleaf.isAbove hapart)
    rcases hleads with heq | habove
    · exact Nat.lt_irrefl _ (heq ▸ hlt)
    · exact Nat.lt_asymm hlt (ArgPath.length_lt_of_isAbove habove)
  · obtain ⟨rest, hrest⟩ := ArgPath.isAbove_iff.mp habove
    exact ArgPath.point_not_mem_root i (by rw [hrest]; simp)

end Pattern

/-- A function says nothing about the types of its variables. -/
theorem Variables.type_eq_none {params : List Pattern} : ∀ e ∈ ofPatterns params, e.2.type = none :=
  forall_ofPatterns ⟨fun _ _ h => h, fun _ _ h _ => h⟩ fun _ hmem => by
    obtain ⟨_, _, _, hleaf⟩ := Pattern.leaf_of_mem_allLeaves _ hmem
    exact hleaf.type_eq

end CallContract
