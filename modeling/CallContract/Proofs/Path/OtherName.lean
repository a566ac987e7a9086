import CallContract.Proofs.Path.Inheritance
import CallContract.Proofs.Path.SharedPath

/-!
# Other names of variables

A variable has another name for one of two reasons : its default falls back on that name, or a
variable called so was dropped because the path they share ends in that name. Which variable takes a
name over is settled by the rows that the patterns start with : the first other one at the path
(`Variables.heir?`). The turns of other names do not change that, since they drop nothing at a path
that ends differently (`Variables.heir?_erase`).

What one turn leaves of this is `Variables.TakenOver.step`. Over all turns, the names that were
taken over are those that have an heir (`Variables.otherName_ofPatterns`), and two names never have
the same one (`Variables.eq_of_heir?`).
-/

namespace CallContract

namespace Table

/-- A search for what a removed pair is not finds the same without it. -/
theorem listFind?_erase {κ α : Type} [DecidableEq κ] {q : κ × α → Bool} {k : κ} {v : α} :
    ∀ {t : Table κ α}, t.find? k = some v → q (k, v) = false →
      List.find? q (t.erase k) = List.find? q t
  | [], h, _ => nomatch h
  | (l, w) :: t, h, hq => by
    rw [find?] at h
    rw [erase]
    split
    · rename_i hl
      subst hl
      rw [if_pos rfl] at h
      obtain rfl := Option.some.inj h
      rw [List.find?_cons_of_neg (by rw [hq]; exact Bool.false_ne_true)]
    · rename_i hl
      rw [if_neg hl] at h
      rw [List.find?_cons, List.find?_cons, listFind?_erase h hq]

end Table

/-- A parameter with one more name, unless it has another name already. -/
def Parameter.takingOver (p : Parameter) (name : String) : Parameter :=
  { p with otherName := some (p.otherName.getD name) }

namespace Variables

variable {base vars : Variables} {x z : String}

/-! ## Names and paths -/

theorem keys_places (vars : Variables) : Table.keys (places vars) = vars.keys := by
  rw [Table.keys, places, List.map_map]
  rfl

theorem find?_places (x : String) : ∀ vars : Variables,
    Table.find? (places vars) x = (vars.find? x).map fun p => p.path
  | [] => rfl
  | (y, p) :: vars => by
    have hcons : places ((y, p) :: vars) = (y, p.path) :: places vars := rfl
    rw [hcons, Table.find?, Table.find?]
    split
    · rfl
    · exact find?_places x vars

theorem places_erase (x : String) : ∀ vars : Variables,
    places (vars.erase x) = Table.erase (places vars) x
  | [] => rfl
  | (y, p) :: vars => by
    have hcons : places ((y, p) :: vars) = (y, p.path) :: places vars := rfl
    rw [hcons, Table.erase, Table.erase]
    split
    · rfl
    · rw [← places_erase x vars]
      rfl

/-! ## Heirs -/

/-- The name that takes over a name : of the others at its path, if the path ends in it, the
first. -/
def heir? (places : Table String ArgPath) (name : String) : Option String :=
  match places.find? name with
  | none => none
  | some path =>
    if path.lastKey? = some name then
      (List.find? (fun e => decide (e.1 ≠ name ∧ e.2 = path)) places).map Prod.fst
    else none

theorem heir?_eq_some {places : Table String ArgPath} (h : heir? places z = some x) :
    ∃ path, places.find? z = some path ∧ path.lastKey? = some z ∧ x ≠ z ∧ (x, path) ∈ places := by
  unfold heir? at h
  split at h
  · cases h
  rename_i path hpath
  split at h
  · rename_i hlast
    obtain ⟨⟨y, other⟩, hfind, rfl⟩ := Option.map_eq_some_iff.mp h
    obtain ⟨hne, rfl⟩ : y ≠ z ∧ other = path := by simpa using List.find?_some hfind
    exact ⟨other, hpath, hlast, hne, List.mem_of_find?_eq_some hfind⟩
  · cases h

/-- Nobody takes over two names : they would both be the last key of one path. -/
theorem eq_of_heir? {places : Table String ArgPath} {w : String} (hnodup : places.keys.Nodup)
    (hz : heir? places z = some x) (hw : heir? places w = some x) : z = w := by
  obtain ⟨path, -, hlast, -, hmem⟩ := heir?_eq_some hz
  obtain ⟨path', -, hlast', -, hmem'⟩ := heir?_eq_some hw
  obtain rfl : path = path' := Option.some.inj
    (((Table.find?_eq_some_iff hnodup).mpr hmem).symm.trans
      ((Table.find?_eq_some_iff hnodup).mpr hmem'))
  exact Option.some.inj (hlast.symm.trans hlast')

/-- Removing a name that is the last key of its path changes nothing for the heirs of others. -/
theorem heir?_erase {places : Table String ArgPath} {path : ArgPath} {w : String}
    (hz : places.find? z = some path) (hlast : path.lastKey? = some z) (hne : w ≠ z) :
    heir? (places.erase z) w = heir? places w := by
  unfold heir?
  rw [Table.find?_erase_of_ne hne]
  split
  · rfl
  rename_i other hother
  split
  · rename_i hlast'
    have hpath : path ≠ other := by
      rintro rfl
      exact hne (Option.some.inj (hlast'.symm.trans hlast))
    rw [Table.listFind?_erase hz (by simp [hpath])]
  · rfl

/-- A turn drops a name exactly if it has an heir, which takes it over. -/
theorem dropShared_eq (vars : Variables) (name : String) : vars.dropShared name =
    match heir? (places vars) name with
    | none => vars
    | some keeper => (vars.erase name).modify keeper fun p => p.takingOver name := by
  unfold dropShared heir?
  rw [find?_places]
  cases vars.find? name with
  | none => rfl
  | some p =>
    simp only [Option.map_some]
    by_cases hlast : p.path.lastKey? = some name
    · rw [if_pos hlast, if_pos hlast, places, List.find?_map, Option.map_map]
      have hsame : List.find? ((fun e => decide (e.1 ≠ name ∧ e.2 = p.path)) ∘
          fun e : String × Parameter => (e.1, e.2.path)) vars =
          List.find? (fun e => decide (e.1 ≠ name ∧ e.2.path = p.path)) vars := rfl
      rw [hsame]
      cases List.find? (fun e => decide (e.1 ≠ name ∧ e.2.path = p.path)) vars <;> rfl
    · rw [if_neg hlast, if_neg hlast]

/-! ## Turn after turn -/

/-- After the turns of some names, a variable has another name that it started with, or else has
taken over one of those names, and who takes over the other ones is still open. -/
structure TakenOver (base : Variables) (done : List String) (vars : Variables) : Prop where
  nodup : vars.keys.Nodup
  row : ∀ x p', vars.find? x = some p' → ∃ p, base.find? x = some p ∧ p'.path = p.path ∧
    ∀ s, p'.otherName = some s ↔ p.otherName = some s ∨
      p.otherName = none ∧ s ∈ done ∧ heir? (places base) s = some x
  heir : ∀ z ∉ done, heir? (places vars) z = heir? (places base) z

theorem takenOver_nil (hnodup : base.keys.Nodup) : TakenOver base [] base where
  nodup := hnodup
  row x p hp := ⟨p, hp, rfl, fun s => by simp⟩
  heir _ _ := rfl

/-- A variable that has not taken over the name has the other names that it had before the turn. -/
theorem TakenOver.row_concat {done : List String} {p p' : Parameter}
    (h : ∀ s, p'.otherName = some s ↔ p.otherName = some s ∨
      p.otherName = none ∧ s ∈ done ∧ heir? (places base) s = some x)
    (hz : heir? (places base) z ≠ some x) (s : String) :
    p'.otherName = some s ↔ p.otherName = some s ∨
      p.otherName = none ∧ s ∈ done ++ [z] ∧ heir? (places base) s = some x := by
  rw [h]
  refine or_congr_right (and_congr_right fun _ => ?_)
  rw [List.mem_append, List.mem_singleton, or_and_right]
  refine (or_iff_left ?_).symm
  rintro ⟨rfl, hs⟩
  exact hz hs

/-- The heir has the name that was dropped, unless it falls back on one. It has not taken over
another before. -/
theorem TakenOver.row_heir (hbase : base.keys.Nodup) {done : List String} {p p' : Parameter}
    (h : ∀ s, p'.otherName = some s ↔ p.otherName = some s ∨
      p.otherName = none ∧ s ∈ done ∧ heir? (places base) s = some x)
    (hz : heir? (places base) z = some x) (hnew : z ∉ done) (s : String) :
    (p'.takingOver z).otherName = some s ↔ p.otherName = some s ∨
      p.otherName = none ∧ s ∈ done ++ [z] ∧ heir? (places base) s = some x := by
  have honly : ∀ w, heir? (places base) w = some x → w = z := fun w hw =>
    eq_of_heir? (by rwa [keys_places]) hw hz
  rw [Parameter.takingOver]
  cases hp : p.otherName with
  | some t =>
    rw [(h t).mpr (Or.inl hp)]
    simp
  | none =>
    have hnone : p'.otherName = none := by
      rw [Option.eq_none_iff_forall_ne_some]
      intro w hw
      obtain ⟨-, hdone, hheir⟩ := ((h w).mp hw).resolve_left (by simp [hp])
      exact hnew (honly w hheir ▸ hdone)
    rw [hnone, Option.getD_none]
    constructor
    · intro hs
      obtain rfl := Option.some.inj hs
      exact Or.inr ⟨rfl, List.mem_append_right _ List.mem_cons_self, hz⟩
    · rintro (hs | ⟨-, -, hs⟩)
      · cases hs
      · rw [honly s hs]

/-- What one turn does. -/
theorem TakenOver.step (hbase : base.keys.Nodup) {done : List String} (h : TakenOver base done vars)
    (hnew : z ∉ done) : TakenOver base (done ++ [z]) (vars.dropShared z) := by
  have hheir := h.heir z hnew
  refine ⟨nodup_dropShared z h.nodup, ?_, ?_⟩
  · rw [dropShared_eq, hheir]
    intro x p' hp'
    cases hkeeper : heir? (places base) z with
    | none =>
      rw [hkeeper] at hp'
      obtain ⟨p, hp, hpath, hother⟩ := h.row x p' hp'
      exact ⟨p, hp, hpath, row_concat hother (by rw [hkeeper]; nofun)⟩
    | some keeper =>
      rw [hkeeper] at hp'
      have hkey : x ∈ Table.keys ((vars.erase z).modify keeper fun p => p.takingOver z) :=
        (Table.mem_keys_iff _ _).mpr (by rw [hp']; rfl)
      rw [Table.keys_modify, Table.keys_erase, h.nodup.mem_erase_iff] at hkey
      by_cases hx : x = keeper
      · subst hx
        rw [Table.find?_modify_self, Table.find?_erase_of_ne hkey.1] at hp'
        obtain ⟨q, hq, rfl⟩ := Option.map_eq_some_iff.mp hp'
        obtain ⟨p, hp, hpath, hother⟩ := h.row x q hq
        exact ⟨p, hp, hpath, row_heir hbase hother hkeeper hnew⟩
      · rw [Table.find?_modify_of_ne _ hx, Table.find?_erase_of_ne hkey.1] at hp'
        obtain ⟨p, hp, hpath, hother⟩ := h.row x p' hp'
        refine ⟨p, hp, hpath, row_concat hother fun heq => hx ?_⟩
        exact Option.some.inj (heq.symm.trans hkeeper)
  · intro w hw
    rw [List.mem_append, List.mem_singleton, not_or] at hw
    rw [← h.heir w hw.1, dropShared_eq]
    cases hkeeper : heir? (places vars) z with
    | none => rfl
    | some keeper =>
      obtain ⟨path, hpath, hlast, -⟩ := heir?_eq_some hkeeper
      simp only
      rw [places_modify (f := fun p => p.takingOver z) (fun _ => rfl), places_erase]
      exact heir?_erase hpath hlast hw.2

theorem TakenOver.foldl (hbase : base.keys.Nodup) : ∀ {names done : List String}
    {vars : Variables}, (done ++ names).Nodup → TakenOver base done vars →
      TakenOver base (done ++ names) (names.foldl dropShared vars)
  | [], done, _, _, h => by rwa [List.append_nil]
  | z :: names, done, vars, hnodup, h => by
    have hnew : z ∉ done := fun hz =>
      (List.nodup_append.mp hnodup).2.2 z hz z List.mem_cons_self rfl
    rw [List.append_cons] at hnodup ⊢
    exact TakenOver.foldl hbase hnodup (h.step hbase hnew)

theorem takenOver_collapseShared (hbase : base.keys.Nodup) :
    TakenOver base base.keys (collapseShared base) :=
  (takenOver_nil hbase).foldl hbase hbase

/-- What is left of variables when others fall back on some has kept its path and its other name. -/
theorem exists_find?_collapseFallbacks {p' : Parameter} (hbase : base.keys.Nodup)
    (h : Table.find? (collapseFallbacks base) x = some p') :
    ∃ p, base.find? x = some p ∧ p'.path = p.path ∧ p'.otherName = p.otherName := by
  let Left (vars : Variables) : Prop := vars.keys.Nodup ∧ ∀ x p', vars.find? x = some p' →
    ∃ p, base.find? x = some p ∧ p'.path = p.path ∧ p'.otherName = p.otherName
  have hleft : Left (collapseFallbacks base) := by
    refine foldl_induction (S := Left) (fun vars name h => ⟨nodup_dropFallback name h.1, ?_⟩) _
      ⟨hbase, fun x p hp => ⟨p, hp, rfl, rfl⟩⟩
    intro y q hq
    by_cases hy : y = name
    · subst hy
      rcases dropFallback_cases vars y with ⟨heq, -⟩ | ⟨p, w, f, hp, -, -, -, -⟩
      · exact h.2 y q (heq ▸ hq)
      · obtain ⟨p', hp', hcases⟩ := find?_dropFallback_self hp
        obtain rfl := Option.some.inj (hq.symm.trans hp')
        rcases hcases with rfl | ⟨g, rfl⟩
        · exact h.2 y q hp
        · exact h.2 y p hp
    · rw [find?_dropFallback_of_ne h.1 hy ((Table.mem_keys_iff _ _).mpr (by rw [hq]; rfl))] at hq
      exact h.2 y q hq
  exact hleft.2 x p' h

/-! ## Variables -/

/-- The rows that the names in patterns start with. Of those of one name the last one counts. -/
def bound (params : List Pattern) : Variables :=
  Table.ofList ((Pattern.allLeaves 0 params).map fun p => (p.name, p))

/-- The default of a name falls back on another one. -/
def FallsBack (vars : Variables) (x s : String) : Prop :=
  ∃ p, vars.find? x = some p ∧ p.otherName = some s

/-- A name falls back on none, and takes one over. -/
def TakesOver (vars : Variables) (x s : String) : Prop :=
  ∃ p, vars.find? x = some p ∧ p.otherName = none ∧ heir? (places vars) s = some x

/-- What another name of a variable is for : its default falls back on it, or it takes it over. -/
def HasOtherName (vars : Variables) (x s : String) : Prop := FallsBack vars x s ∨ TakesOver vars x s

/-- No two names take over the same one. -/
theorem TakesOver.unique {y s : String} (hx : TakesOver vars x s) (hy : TakesOver vars y s) :
    x = y := by
  obtain ⟨-, -, -, hx⟩ := hx
  obtain ⟨-, -, -, hy⟩ := hy
  exact Option.some.inj (hx.symm.trans hy)

theorem nodup_bound (params : List Pattern) : (bound params).keys.Nodup := Table.nodup_ofList _

/-- The other name of a variable is the one that it falls back on, or else the one that it takes
over. -/
theorem otherName_ofPatterns {params : List Pattern} {e : String × Parameter}
    (he : e ∈ ofPatterns params) (s : String) :
    e.2.otherName = some s ↔ HasOtherName (bound params) e.1 s := by
  have hshared := takenOver_collapseShared (nodup_bound params)
  have hfind := (Table.find?_eq_some_iff (nodup_ofPatterns params)).mpr he
  obtain ⟨q, hq, -, hsame⟩ := exists_find?_collapseFallbacks hshared.nodup hfind
  obtain ⟨p, hp, -, hother⟩ := hshared.row _ _ hq
  rw [hsame, hother]
  constructor
  · rintro (h | ⟨hnone, -, hheir⟩)
    · exact Or.inl ⟨p, hp, h⟩
    · exact Or.inr ⟨p, hp, hnone, hheir⟩
  · rintro (⟨p', hp', h⟩ | ⟨p', hp', hnone, hheir⟩)
    · obtain rfl := Option.some.inj (hp.symm.trans hp')
      exact Or.inl h
    · obtain rfl := Option.some.inj (hp.symm.trans hp')
      obtain ⟨path, hpath, -⟩ := heir?_eq_some hheir
      refine Or.inr ⟨hnone, ?_, hheir⟩
      rw [← keys_places, Table.mem_keys_iff, hpath]
      rfl

end Variables

end CallContract
