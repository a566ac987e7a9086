import CallContract.Registry

/-!
# Recording definitions

A definition that is recorded is there, and stays until another one of its name is recorded
(`Registry.mem_registerAll`). To record a definition that is there changes nothing : a registry
does not tell how often its definitions came up (`Registry.registerAll_eq_self`).
-/

namespace CallContract

namespace TypeDef

variable {d e : TypeDef}

theorem name_mem_names {ds : List TypeDef} (h : d ∈ ds) : d.name ∈ names ds :=
  List.mem_map.mpr ⟨d, h, rfl⟩

theorem mem_put_self (d : TypeDef) : ∀ ds : List TypeDef, d ∈ put ds d
  | [] => List.mem_singleton.mpr rfl
  | e :: ds => by
    rw [put]
    split
    · exact List.mem_cons_self
    · exact List.mem_cons_of_mem e (mem_put_self d ds)

theorem mem_put : ∀ {ds : List TypeDef}, e ∈ put ds d → e = d ∨ e ∈ ds
  | [], h => Or.inl (List.mem_singleton.mp h)
  | f :: ds, h => by
    rw [put] at h
    split at h
    · exact (List.mem_cons.mp h).imp_right (List.mem_cons_of_mem f)
    · rcases List.mem_cons.mp h with rfl | h
      · exact Or.inr List.mem_cons_self
      · exact (mem_put h).imp_right (List.mem_cons_of_mem f)

/-- A definition of another name stays. -/
theorem mem_put_of_ne (hne : e.name ≠ d.name) : ∀ {ds : List TypeDef}, e ∈ ds → e ∈ put ds d
  | f :: ds, h => by
    rw [put]
    rcases List.mem_cons.mp h with rfl | h
    · rw [if_neg hne]
      exact List.mem_cons_self
    · split
      · exact List.mem_cons_of_mem d h
      · exact List.mem_cons_of_mem f (mem_put_of_ne hne h)

/-- Among definitions of distinct names, to put one that is there moves nothing. -/
theorem put_eq_self : ∀ {ds : List TypeDef}, (names ds).Nodup → d ∈ ds → put ds d = ds
  | f :: ds, hnodup, h => by
    rw [names_cons, List.nodup_cons] at hnodup
    rw [put]
    rcases List.mem_cons.mp h with rfl | h
    · rw [if_pos rfl]
    · have hne : f.name ≠ d.name := fun heq => hnodup.1 (heq ▸ name_mem_names h)
      rw [if_neg hne, put_eq_self hnodup.2 h]

end TypeDef

namespace Registry

variable {r : Registry} {d : TypeDef}

theorem eq_of_defs : ∀ {r s : Registry}, r.defs = s.defs → r = s
  | ⟨_, _⟩, ⟨_, _⟩, rfl => rfl

theorem register_eq_self (h : d ∈ r.defs) : r.register d = r :=
  eq_of_defs (TypeDef.put_eq_self r.nodup h)

/-- To record definitions that are all there changes nothing. -/
theorem registerAll_eq_self : ∀ {ds : List TypeDef}, (∀ d ∈ ds, d ∈ r.defs) → r.registerAll ds = r
  | [], _ => rfl
  | d :: ds, h => by
    obtain ⟨hd, hds⟩ := List.forall_mem_cons.mp h
    change (r.register d).registerAll ds = r
    rw [register_eq_self hd]
    exact registerAll_eq_self hds

/-- A definition stays while others of other names are recorded. -/
theorem mem_registerAll_of_not_mem : ∀ {ds : List TypeDef} {r : Registry}, d ∈ r.defs →
    d.name ∉ TypeDef.names ds → d ∈ (r.registerAll ds).defs
  | [], _, h, _ => h
  | e :: ds, r, h, hname => by
    rw [TypeDef.names_cons, List.mem_cons, not_or] at hname
    have hstays : d ∈ (r.register e).defs := TypeDef.mem_put_of_ne hname.1 h
    exact mem_registerAll_of_not_mem (r := r.register e) hstays hname.2

/-- Of definitions of distinct names each one that is recorded is there. -/
theorem mem_registerAll : ∀ {ds : List TypeDef} {r : Registry}, (TypeDef.names ds).Nodup →
    d ∈ ds → d ∈ (r.registerAll ds).defs
  | e :: ds, r, hnodup, h => by
    rw [TypeDef.names_cons, List.nodup_cons] at hnodup
    rcases List.mem_cons.mp h with rfl | h
    · have hthere : d ∈ (r.register d).defs := TypeDef.mem_put_self d r.defs
      exact mem_registerAll_of_not_mem (r := r.register d) hthere hnodup.1
    · exact mem_registerAll (r := r.register e) hnodup.2 h

end Registry

end CallContract
