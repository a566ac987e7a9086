import CallContract.Proofs.Path.Collapse

/-!
# Variables that share a path

Going through the names, a variable that is called like the last key of its path is dropped if
another variable has the path (`Variables.hasOwnPath_dropShared`). Afterwards names and paths are
only taken away (`Variables.sublist_places_dropShared`, `Variables.sublist_places_dropFallback`),
so in the end a variable with such a name has its path to itself. Nothing is dropped for a path
that two variables have under other names : then both of them stay
(`Variables.sharedPath_ofPatterns`), and the paths of a function need not be distinct
(`Variables.not_forall_nodup_paths`).
-/

namespace CallContract

namespace Variables

variable {vars : Variables}

/-! ## Names and paths -/

/-- The names of variables with their paths. -/
def places (vars : Variables) : List (String × ArgPath) := vars.map fun e => (e.1, e.2.path)

theorem places_modify {f : Parameter → Parameter} (hf : ∀ p, (f p).path = p.path) (name : String) :
    ∀ vars : Variables, places (Table.modify vars name f) = places vars
  | [] => rfl
  | (x, p) :: vars => by
    rw [Table.modify]
    split
    · simp only [places, List.map_cons, hf]
    · exact congrArg ((x, p.path) :: ·) (places_modify hf name vars)

theorem sublist_places_erase_modify {f : Parameter → Parameter} (hf : ∀ p, (f p).path = p.path)
    (x y : String) : (places ((vars.erase x).modify y f)).Sublist (places vars) := by
  rw [places_modify hf]
  exact (Table.erase_sublist x vars).map _

theorem sublist_places_dropShared (name : String) :
    (places (vars.dropShared name)).Sublist (places vars) := by
  unfold dropShared
  split
  · exact List.Sublist.refl _
  split
  · split
    · exact List.Sublist.refl _
    · refine sublist_places_erase_modify ?_ _ _
      exact fun _ => rfl
  · exact List.Sublist.refl _

theorem sublist_places_dropFallback (name : String) :
    (places (vars.dropFallback name)).Sublist (places vars) := by
  unfold dropFallback
  split
  · exact List.Sublist.refl _
  split
  · exact List.Sublist.refl _
  split
  · exact List.Sublist.refl _
  · refine sublist_places_erase_modify ?_ _ _
    exact fun _ => rfl

theorem sublist_places_foldl {step : Variables → String → Variables}
    (hstep : ∀ vars name, (places (step vars name)).Sublist (places vars)) (names : List String)
    (vars : Variables) : (places (names.foldl step vars)).Sublist (places vars) :=
  foldl_induction (S := fun vars' => (places vars').Sublist (places vars))
    (fun vars' name h => (hstep vars' name).trans h) names (List.Sublist.refl _)

/-! ## Names that are the last key of their path -/

/-- A variable `name` that is called like the last key of its path shares the path with no other
variable. -/
def HasOwnPath (vars : Variables) (name : String) : Prop :=
  ∀ path, (name, path) ∈ places vars → path.lastKey? = some name →
    ∀ e ∈ places vars, e.2 = path → e.1 = name

theorem HasOwnPath.of_sublist {vars' : Variables} {name : String} (h : HasOwnPath vars name)
    (hsub : (places vars').Sublist (places vars)) : HasOwnPath vars' name :=
  fun path hmem hlast e he => h path (hsub.subset hmem) hlast e (hsub.subset he)

theorem hasOwnPath_of_find?_eq_none {name : String} (h : vars.find? name = none) :
    HasOwnPath vars name := by
  intro path hmem
  obtain ⟨e, he, heq⟩ := List.mem_map.mp hmem
  have hkey : name ∈ vars.keys := List.mem_map.mpr ⟨e, he, congrArg Prod.fst heq⟩
  rw [Table.mem_keys_iff, h] at hkey
  cases hkey

theorem path_of_mem_places {name : String} {p : Parameter} {path : ArgPath}
    (hnodup : vars.keys.Nodup) (hp : vars.find? name = some p) (h : (name, path) ∈ places vars) :
    path = p.path := by
  obtain ⟨e, he, heq⟩ := List.mem_map.mp h
  obtain ⟨rfl, rfl⟩ := Prod.mk.inj heq
  rw [(Table.find?_eq_some_iff hnodup).mpr he] at hp
  rw [Option.some.inj hp]

/-- A step leaves its own name without a rival for its path. -/
theorem hasOwnPath_dropShared (hnodup : vars.keys.Nodup) (name : String) :
    HasOwnPath (vars.dropShared name) name := by
  unfold dropShared
  split
  · rename_i hnone
    exact hasOwnPath_of_find?_eq_none hnone
  rename_i p hp
  split
  · split
    · rename_i hnone
      intro path hmem _ e he hpath
      obtain ⟨f, hf, rfl⟩ := List.mem_map.mp he
      have hrival := List.find?_eq_none.mp hnone f hf
      by_contra hne
      refine hrival (decide_eq_true ⟨hne, ?_⟩)
      rw [← path_of_mem_places hnodup hp hmem]
      exact hpath
    · refine hasOwnPath_of_find?_eq_none (Option.not_isSome_iff_eq_none.mp fun hsome => ?_)
      rw [← Table.mem_keys_iff, Table.keys_modify, Table.keys_erase] at hsome
      exact hnodup.not_mem_erase hsome
  · rename_i hlast
    intro path hmem hkey
    rw [path_of_mem_places hnodup hp hmem] at hkey
    exact absurd hkey hlast

/-- The induction is on the names that are still to be gone through : the step of a name settles it,
and the other steps leave it so. -/
theorem hasOwnPath_foldl : ∀ (names : List String) {vars : Variables}, vars.keys.Nodup →
    ∀ name ∈ names, HasOwnPath (names.foldl dropShared vars) name
  | x :: names, vars, hnodup, name, h => by
    rw [List.foldl_cons]
    rcases List.mem_cons.mp h with rfl | h
    · exact (hasOwnPath_dropShared hnodup name).of_sublist
        (sublist_places_foldl (fun _ x => sublist_places_dropShared x) names _)
    · exact hasOwnPath_foldl names (nodup_dropShared x hnodup) name h

theorem hasOwnPath_ofPatterns (params : List Pattern) (name : String) :
    HasOwnPath (ofPatterns params) name := by
  have hnodup := Table.nodup_ofList ((Pattern.allLeaves 0 params).map fun p => (p.name, p))
  rw [ofPatterns]
  generalize Table.ofList ((Pattern.allLeaves 0 params).map fun p => (p.name, p)) = vars
    at hnodup ⊢
  have hshared : HasOwnPath (collapseShared vars) name := by
    by_cases hname : name ∈ vars.keys
    · exact hasOwnPath_foldl _ hnodup name hname
    · refine HasOwnPath.of_sublist (hasOwnPath_of_find?_eq_none ?_)
        (sublist_places_foldl (fun _ x => sublist_places_dropShared x) _ vars)
      exact Option.not_isSome_iff_eq_none.mp ((Table.mem_keys_iff vars name).not.mp hname)
  exact hshared.of_sublist (sublist_places_foldl (fun _ x => sublist_places_dropFallback x) _ _)

/-! ## Names that are not -/

/-- The rows of the name have one path, of which it is not the last key, and no row of another name
falls back on it. -/
structure Renamed (leaves : List Parameter) (name : String) (path : ArgPath) : Prop where
  bound : ∃ p ∈ leaves, p.name = name
  onePath : ∀ p ∈ leaves, p.name = name → p.path = path
  lastKey : path.lastKey? ≠ some name
  needed : ∀ p ∈ leaves, p.otherName = some name → p.name = name

/-- A renamed variable is not dropped for another. -/
theorem Renamed.exists_mem {leaves : List Parameter} {name : String} {path : ArgPath}
    (h : Renamed leaves name path) (hexplained : Explained leaves vars) :
    ∃ e ∈ vars, e.1 = name ∧ e.2.path = path := by
  obtain ⟨leaf, hleaf, hname⟩ := h.bound
  have hkey : name ∈ vars.keys := by
    rcases hexplained.dropped leaf hleaf with hmem | ⟨p, hp, hpname, hlast, -⟩ |
      ⟨p, hp, hne, hother⟩
    · exact hname ▸ hmem
    · rw [hname] at hpname hlast
      rw [h.onePath p hp hpname] at hlast
      exact absurd hlast h.lastKey
    · rw [hname] at hne hother
      exact absurd (h.needed p hp hother) hne
  obtain ⟨e, he, hename⟩ := List.mem_map.mp hkey
  obtain ⟨row, hrow, hfrom⟩ := hexplained.row e he
  exact ⟨e, he, hename, hfrom.path.trans (h.onePath row hrow (hfrom.key.symm.trans hename))⟩

/-! ## Variables -/

/-- Two variables have one path only if neither is called like its last key. A name that is renamed
stays a variable at its path, so two such names at one path share it. -/
theorem sharedPath_ofPatterns (params : List Pattern) :
    (∀ e ∈ ofPatterns params, ∀ f ∈ ofPatterns params, e.1 ≠ f.1 → e.2.path = f.2.path →
      e.2.path.lastKey? ≠ some e.1 ∧ e.2.path.lastKey? ≠ some f.1) ∧
    ∀ name path, Renamed (Pattern.allLeaves 0 params) name path →
      ∃ e ∈ ofPatterns params, e.1 = name ∧ e.2.path = path := by
  refine ⟨fun e he f hf hne hpath => ?_, fun name path h => h.exists_mem (explained_ofPatterns _)⟩
  have heplace : (e.1, e.2.path) ∈ places (ofPatterns params) := List.mem_map_of_mem he
  have hfplace : (f.1, f.2.path) ∈ places (ofPatterns params) := List.mem_map_of_mem hf
  refine ⟨fun hlast => hne ?_, fun hlast => hne ?_⟩
  · exact (hasOwnPath_ofPatterns params e.1 _ heplace hlast _ hfplace hpath.symm).symm
  · rw [hpath] at hlast
    exact hasOwnPath_ofPatterns params f.1 _ hfplace hlast _ heplace hpath

/-- A property that is bound under its own name and two others is left with the two. -/
theorem sharedPath_ofPatterns_threeNames : ∃ params : List Pattern,
    (Pattern.allLeaves 0 params).map (fun p => p.name) = ["a", "p", "b"] ∧
    ∃ e ∈ ofPatterns params, ∃ f ∈ ofPatterns params,
      e.1 = "a" ∧ f.1 = "b" ∧ e.2.path = f.2.path ∧ e.2.path.lastKey? ≠ some e.1 := by
  let params : List Pattern := [.object
    [.property (.ident "p") (.ident "a"), .property (.ident "p") (.ident "p"),
      .property (.ident "p") (.ident "b")]]
  have hleaves : Pattern.allLeaves 0 params =
      [{ name := "a", path := ⟨"0.p"⟩ }, { name := "p", path := ⟨"0.p"⟩ },
        { name := "b", path := ⟨"0.p"⟩ }] := by cbv
  have hlast : (ArgPath.mk "0.p").lastKey? = some "p" := by cbv
  have ha : Renamed (Pattern.allLeaves 0 params) "a" ⟨"0.p"⟩ := by
    rw [hleaves]
    exact ⟨by decide, by decide, by rw [hlast]; decide, by decide⟩
  have hb : Renamed (Pattern.allLeaves 0 params) "b" ⟨"0.p"⟩ := by
    rw [hleaves]
    exact ⟨by decide, by decide, by rw [hlast]; decide, by decide⟩
  obtain ⟨hshared, hrenamed⟩ := sharedPath_ofPatterns params
  obtain ⟨e, he, hename, hepath⟩ := hrenamed _ _ ha
  obtain ⟨f, hf, hfname, hfpath⟩ := hrenamed _ _ hb
  have hpath : e.2.path = f.2.path := hepath.trans hfpath.symm
  have hne : e.1 ≠ f.1 := by rw [hename, hfname]; decide
  exact ⟨params, by rw [hleaves]; rfl, e, he, f, hf, hename, hfname, hpath,
    (hshared e he f hf hne hpath).1⟩

/-- A property that is bound under two other names is two variables. -/
theorem not_forall_nodup_paths :
    ¬∀ params : List Pattern, ((ofPatterns params).map fun e => e.2.path).Nodup := by
  intro h
  have htwice : (ofPatterns [.object
      [.property (.ident "p") (.ident "a"), .property (.ident "p") (.ident "b")]]).map
        (fun e => e.2.path) = [⟨"0.p"⟩, ⟨"0.p"⟩] := by cbv
  have hnodup := h [.object
    [.property (.ident "p") (.ident "a"), .property (.ident "p") (.ident "b")]]
  rw [htwice] at hnodup
  revert hnodup
  decide

end Variables

end CallContract
