import CallContract.Proofs.Path.Inheritance
import CallContract.Proofs.Path.SharedPath

/-!
# Variables that others fall back on

Each variable takes over what it falls back on when its turn comes, in a table from which earlier
turns have taken variables away already. A variable that is left in the end was there at its turn,
since no turn brings one back, so what it falls back on is gone (`Variables.mem_standing`). Nothing
else is taken away : the variables that are left are those that no row falls back on that was there
at its turn, whatever chains or circles the rows make (`Variables.fallback_not_mem_ofPatterns`).
-/

namespace CallContract.Variables

variable {rows : List Parameter} {p : Parameter}

theorem prefix_standing (front : List Parameter) : ∀ more : List Parameter,
    standing front <+: standing (front ++ more) := by
  intro more
  induction more using List.reverseRecOn with
  | nil => rw [List.append_nil]
  | append_singleton more p ih =>
    rw [← List.append_assoc, standing_concat]
    split
    · exact ih
    · exact ih.trans (List.prefix_append _ _)

/-- A row that no other standing row falls back on stands itself. -/
theorem mem_standing (hnames : (rows.map fun p => p.name).Nodup) (hp : p ∈ rows)
    (h : ∀ q ∈ standing rows, q.otherName = some p.name → q.name = p.name) :
    p ∈ standing rows := by
  obtain ⟨front, behind, hrows⟩ := List.append_of_mem hp
  have hfree : ((standing front).any fun q => q.otherName = some p.name) = false := by
    rw [List.any_eq_false]
    intro q hq hother
    have hstands : q ∈ standing rows := hrows ▸ (prefix_standing front (p :: behind)).subset hq
    exact name_ne_of_mem_front hnames hrows (mem_of_mem_standing hq)
      (h q hstands (of_decide_eq_true hother))
  have hturn : p ∈ standing (front ++ [p]) := by
    rw [standing_concat, if_neg (by simp [hfree])]
    exact List.mem_append_right _ List.mem_cons_self
  have hsplit : rows = front ++ [p] ++ behind := by rw [hrows]; simp
  exact hsplit ▸ (prefix_standing (front ++ [p]) behind).subset hturn

/-! ## All turns -/

theorem beforeFallbacks_eq (params : List Pattern) :
    (beforeFallbacks params).values.map (fun p => (p.name, p)) = beforeFallbacks params := by
  have hname : ∀ e ∈ beforeFallbacks params, (e.2.name, e.2) = e := by
    intro e he
    obtain ⟨leaf, -, hrow⟩ := (explained_beforeFallbacks params).row e he
    rw [hrow.name, ← hrow.key]
  rw [Table.values, List.map_map]
  exact (List.map_congr_left hname).trans (List.map_id' _)

theorem keys_beforeFallbacks (params : List Pattern) :
    (beforeFallbacks params).values.map (fun p => p.name) = (beforeFallbacks params).keys := by
  conv_rhs => rw [← beforeFallbacks_eq params]
  rw [Table.keys, List.map_map]
  rfl

/-- The variables of a function are there after the turns of all rows. -/
theorem advanced_ofPatterns (params : List Pattern) :
    Advanced (beforeFallbacks params).values (beforeFallbacks params).values
      (ofPatterns params) := by
  have hnames : ((beforeFallbacks params).values.map fun p => p.name).Nodup :=
    keys_beforeFallbacks params ▸ (explained_beforeFallbacks params).nodup
  have hrows : (beforeFallbacks params).values = [] ++ (beforeFallbacks params).values ++ [] := by
    simp
  have hall := Advanced.foldl hnames hrows (advanced_nil hnames)
  rwa [keys_beforeFallbacks, beforeFallbacks_eq, List.nil_append] at hall

/-! ## Variables -/

theorem keys_ofPatterns_subset (params : List Pattern) :
    (ofPatterns params).keys ⊆ (beforeFallbacks params).keys := by
  have hplaces := sublist_places_foldl (fun _ x => sublist_places_dropFallback x)
    (beforeFallbacks params).keys (beforeFallbacks params)
  have hkeys := hplaces.map Prod.fst
  rw [places, places, List.map_map, List.map_map] at hkeys
  exact hkeys.subset

/-- A variable falls back on what its row does. -/
theorem exists_row_ofPatterns {params : List Pattern} {e : String × Parameter}
    (he : e ∈ ofPatterns params) :
    ∃ p ∈ (beforeFallbacks params).values, p.name = e.1 ∧ e.2.otherName = p.otherName := by
  have hmem : e.1 ∈ (beforeFallbacks params).keys :=
    keys_ofPatterns_subset params (List.mem_map_of_mem he)
  rw [← keys_beforeFallbacks] at hmem
  obtain ⟨p, hp, hname⟩ := List.mem_map.mp hmem
  have hfind := (Table.find?_eq_some_iff (nodup_ofPatterns params)).mpr he
  exact ⟨p, hp, hname, ((advanced_ofPatterns params).keeps p hp e.2 (hname ▸ hfind)).otherName⟩

theorem mem_keys_ofPatterns_iff {params : List Pattern} {x : String} :
    x ∈ (ofPatterns params).keys ↔ x ∈ (beforeFallbacks params).keys ∧
      ∀ p ∈ standing (beforeFallbacks params).values, p.otherName = some x → p.name = x := by
  have hrow : ∀ p ∈ (beforeFallbacks params).values, p.name ∈ (ofPatterns params).keys ↔
      ∀ q ∈ standing (beforeFallbacks params).values, q.otherName = some p.name →
        q.name = p.name := (advanced_ofPatterns params).mem
  constructor
  · intro hx
    have hbefore := keys_ofPatterns_subset params hx
    refine ⟨hbefore, ?_⟩
    rw [← keys_beforeFallbacks] at hbefore
    obtain ⟨p, hp, rfl⟩ := List.mem_map.mp hbefore
    exact (hrow p hp).mp hx
  · rintro ⟨hbefore, hfree⟩
    rw [← keys_beforeFallbacks] at hbefore
    obtain ⟨p, hp, rfl⟩ := List.mem_map.mp hbefore
    exact (hrow p hp).mpr hfree

/-- No variable falls back on another one, whatever chains or circles of fallbacks the patterns
have. The variables that are left are those that no row of another name falls back on that was
there at its turn, and they fall back on what their rows do. -/
theorem fallback_not_mem_ofPatterns (params : List Pattern) :
    (∀ e ∈ ofPatterns params, ∀ x, e.2.otherName = some x → x ≠ e.1 →
      x ∉ (ofPatterns params).keys) ∧
    (∀ x, x ∈ (ofPatterns params).keys ↔ x ∈ (beforeFallbacks params).keys ∧
      ∀ p ∈ standing (beforeFallbacks params).values, p.otherName = some x → p.name = x) ∧
    ∀ e ∈ ofPatterns params, ∃ p ∈ (beforeFallbacks params).values,
      p.name = e.1 ∧ e.2.otherName = p.otherName := by
  refine ⟨fun e he x hother hne hx => ?_, fun x => mem_keys_ofPatterns_iff,
    fun e he => exists_row_ofPatterns he⟩
  obtain ⟨p, hp, hname, hrow⟩ := exists_row_ofPatterns he
  have hleft : e.1 ∈ (ofPatterns params).keys := List.mem_map_of_mem he
  have hnames : ((beforeFallbacks params).values.map fun p => p.name).Nodup :=
    keys_beforeFallbacks params ▸ (explained_beforeFallbacks params).nodup
  have hstands : p ∈ standing (beforeFallbacks params).values :=
    mem_standing hnames hp (hname ▸ (mem_keys_ofPatterns_iff.mp hleft).2)
  have htaken := (mem_keys_ofPatterns_iff.mp hx).2 p hstands (hrow ▸ hother)
  exact hne (htaken ▸ hname)

-- Of three names in a circle one is left.
example : (ofPatterns [.withDefault (.ident "a") (.name "b"), .withDefault (.ident "b") (.name "c"),
    .withDefault (.ident "c") (.name "a")]).keys = ["c"] := by cbv

end CallContract.Variables
