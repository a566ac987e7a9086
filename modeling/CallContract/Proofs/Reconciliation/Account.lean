import CallContract.Proofs.Reconciliation.Documented
import CallContract.Proofs.Registry.Circles

/-!
# What becomes of the variables of a function

Beside documented parameters a variable stays as it is, or stays with its gaps filled, or gives
way to the innermost parameters below its path (`resolve_of_undocumented`,
`resolve_of_documented`, `resolve_of_givesWay`). The rows that take the place of variables are
added behind the others, each unless its name is taken (`addRows_eq`), which is reported
(`aliasCollision_mem_warningsOf_iff`), as are two defaults of a variable that differ
(`defaultMismatch_mem_warningsOf_iff`). All rows and all warnings are accounted for that way
(`reconcile_accounted`).
-/

namespace CallContract

theorem filterMap_sublist_map {α β : Type} {f : α → Option β} {g : α → β} :
    ∀ {l : List α}, (∀ a ∈ l, ∀ b ∈ f a, b = g a) → (l.filterMap f).Sublist (l.map g)
  | [], _ => .slnil
  | a :: l, h => by
    obtain ⟨ha, hl⟩ := List.forall_mem_cons.mp h
    rw [List.map_cons, List.filterMap_cons]
    split
    · exact (filterMap_sublist_map hl).cons _
    · rename_i b hb
      rw [ha b hb]
      exact (filterMap_sublist_map hl).cons_cons _

/-- `row` is a variable whose gaps are filled from a documented parameter. -/
structure Parameter.FilledFrom (row leaf entry : Parameter) : Prop where
  name : row.name = leaf.name
  path : row.path = leaf.path
  otherName : row.otherName = leaf.otherName
  isRest : row.isRest = leaf.isRest
  default : row.default = leaf.default.or entry.default
  description : row.description = leaf.description.or entry.description
  type : row.type = leaf.type.or entry.type
  isOptional : row.isOptional = leaf.isOptional.or entry.isOptional
  shape : row.shape = leaf.shape.or entry.shape
  element : row.element = leaf.element.or entry.element

theorem Parameter.filledFrom_merge (leaf entry : Parameter) :
    (leaf.merge entry).FilledFrom leaf entry where
  name := rfl
  path := rfl
  otherName := rfl
  isRest := rfl
  default := Option.orElse_eq_or
  description := Option.orElse_eq_or
  type := Option.orElse_eq_or
  isOptional := Option.orElse_eq_or
  shape := Option.orElse_eq_or
  element := Option.orElse_eq_or

/-- The variable that a warning about two defaults is about. -/
def Warning.mismatched? : Warning → Option String
  | defaultMismatch _ name _ _ => some name
  | _ => none

namespace Variables

open Documented (Keyed Innermost CalledByLastKey mem_innermost_iff innermost_ne_nil_iff)

variable {r : Registry} {params : Documented} {leaf entry : Parameter} {function : String}
  {vars : Variables}

/-! ## One variable -/

/-- A variable that is documented as one of an object type, and that is not all remaining
arguments, gives way to parameters below its path if there are any. -/
structure GivesWay (r : Registry) (ps : List Parameter) (leaf entry : Parameter) : Prop where
  single : leaf.isRest = false
  object : ∃ t d, leaf.type.or entry.type = some t ∧ r.find? t = some d ∧ d.isObject = true
  below : ∃ p ∈ ps, leaf.path.isAbove p.path = true

theorem hasObjectType_merge_iff : hasObjectType r (leaf.merge entry) = true ↔
    ∃ t d, leaf.type.or entry.type = some t ∧ r.find? t = some d ∧ d.isObject = true := by
  rw [hasObjectType, (Parameter.filledFrom_merge leaf entry).type]
  cases leaf.type.or entry.type with
  | none => simp
  | some t => cases hd : r.find? t <;> simp [hd]

theorem resolve_of_undocumented (hp : Keyed params)
    (h : ∀ p ∈ params.values, p.path ≠ leaf.path) : resolve r params leaf = .kept leaf := by
  have hnone : params.find? leaf.path = none := by
    rw [Option.eq_none_iff_forall_ne_some]
    intro p hfind
    obtain ⟨hmem, hpath⟩ := hp.find?_eq_some_iff.mp hfind
    exact h p hmem hpath
  rw [resolve, hnone]

theorem resolve_of_documented (hfind : params.find? leaf.path = some entry)
    (h : ¬GivesWay r params.values leaf entry) :
    resolve r params leaf = .kept (leaf.merge entry) := by
  rw [resolve, hfind]
  simp only
  split
  · rw [if_pos]
    rename_i hobject
    rw [Bool.and_eq_true, hasObjectType_merge_iff] at hobject
    rw [List.isEmpty_iff]
    by_contra hne
    have hsingle : (leaf.merge entry).isRest = false := by simpa using hobject.2
    exact h ⟨hsingle, hobject.1, innermost_ne_nil_iff.mp hne⟩
  · rfl

theorem resolve_of_givesWay (hfind : params.find? leaf.path = some entry)
    (h : GivesWay r params.values leaf entry) :
    resolve r params leaf = .replaced (params.innermost leaf.path) := by
  have hobject : (hasObjectType r (leaf.merge entry) && !(leaf.merge entry).isRest) = true := by
    rw [Bool.and_eq_true, hasObjectType_merge_iff]
    exact ⟨h.object, by simpa [Parameter.merge] using h.single⟩
  have hbelow : (params.innermost leaf.path).isEmpty = false := by
    rw [List.isEmpty_eq_false_iff]
    exact innermost_ne_nil_iff.mpr h.below
  rw [resolve, hfind]
  simp only [hobject, if_true]
  exact if_neg (by simpa [Parameter.merge] using hbelow)

/-! ## Rows that are added -/

/-- Rows under their own names. -/
def byName (rows : List Parameter) : Variables := rows.map fun p => (p.name, p)

/-- Rows are added behind those that are there, except for some, which are reported : their
names are taken. -/
theorem addRows_eq (function : String) : ∀ (rows : List Parameter) {vars : Variables},
    vars.keys.Nodup → ∃ added left : List Parameter,
      addRows function vars rows =
        (vars ++ byName added, left.map fun p => .aliasCollision function p.name) ∧
      (added ++ left).Perm rows ∧ (Table.keys (vars ++ byName added)).Nodup ∧
      ∀ p ∈ left, p.name ∈ Table.keys (vars ++ byName added)
  | [], vars, h => ⟨[], [], by simp [addRows, byName], .refl _, by simpa [byName] using h,
      fun _ hp => (List.not_mem_nil hp).elim⟩
  | p :: rows, vars, h => by
    rw [addRows]
    split
    · rename_i hc
      obtain ⟨added, left, heq, hperm, hnodup, hleft⟩ := addRows_eq function rows h
      refine ⟨added, p :: left, by rw [heq]; rfl, List.perm_middle.trans (hperm.cons p), hnodup,
        List.forall_mem_cons.mpr ⟨?_, hleft⟩⟩
      rw [Table.keys, List.map_append]
      exact List.mem_append_left _ ((Table.mem_keys_iff vars p.name).mpr hc)
    · rename_i hc
      have hfresh : p.name ∉ vars.keys := fun hm => hc ((Table.mem_keys_iff vars p.name).mp hm)
      obtain ⟨added, left, heq, hperm, hnodup, hleft⟩ :=
        addRows_eq function rows (Table.nodup_insert p.name p h)
      have happend : vars.insert p.name p ++ byName added = vars ++ byName (p :: added) := by
        rw [Table.insert_eq_append hfresh, List.append_assoc]
        rfl
      rw [happend] at heq hnodup hleft
      exact ⟨p :: added, left, heq, hperm.cons p, hnodup, hleft⟩

/-! ## Warnings -/

theorem circularAlias_of_mem_circles {w : Warning} (h : w ∈ Documented.circles r params) :
    ∃ chain, w = .circularAlias chain := by
  obtain ⟨e, _, hw⟩ := List.mem_flatMap.mp h
  unfold Documented.definition at hw
  split at hw
  · cases hw
  · obtain ⟨circle, back, hw, -⟩ := Registry.circle_of_mem_expand hw
    exact ⟨_, hw⟩

/-- A variable is warned of if it has a default, its documentation has one, and they differ. -/
theorem mismatch?_eq_some_iff (hp : Keyed params) {name : String} {w : Warning} :
    mismatch? function name params leaf = some w ↔
      ∃ a b, w = .defaultMismatch function name a b ∧ ∃ p ∈ params.values, p.path = leaf.path ∧
        leaf.default = some a ∧ p.default = some b ∧ a.same b = false := by
  unfold mismatch?
  constructor
  · intro h
    split at h
    · rename_i a b ha hb
      obtain ⟨p, hfind, hb⟩ := Option.bind_eq_some_iff.mp hb
      obtain ⟨hmem, hpath⟩ := hp.find?_eq_some_iff.mp hfind
      split at h
      · cases h
      · rename_i hsame
        exact ⟨a, b, (Option.some.inj h).symm, p, hmem, hpath, ha, hb,
          Bool.eq_false_iff.mpr hsame⟩
    · cases h
  · rintro ⟨a, b, rfl, p, hmem, hpath, ha, hb, hsame⟩
    rw [ha, hp.find?_eq_some_iff.mpr ⟨hmem, hpath⟩]
    simp only [Option.bind_some, hb, hsame, Bool.false_eq_true, if_false]

/-- The warnings of a reconciliation : of circles, of defaults, and of names that are taken. -/
def warningsOf (function : String) (params : Documented) (vars : Variables)
    (circles : List Warning) (left : List Parameter) : List Warning :=
  circles ++ vars.filterMap (fun e => mismatch? function e.1 params e.2) ++
    left.map fun p => .aliasCollision function p.name

section

variable {circles : List Warning} {left : List Parameter} {f name : String}
  (hp : Keyed params) (hcircles : ∀ w ∈ circles, ∃ chain, w = .circularAlias chain)

include hp hcircles

theorem aliasCollision_mem_warningsOf_iff :
    .aliasCollision f name ∈ warningsOf function params vars circles left ↔
      f = function ∧ ∃ row ∈ left, row.name = name := by
  constructor
  · intro h
    rcases List.mem_append.mp h with h | h
    · rcases List.mem_append.mp h with h | h
      · obtain ⟨_, hw⟩ := hcircles _ h
        cases hw
      · obtain ⟨e, _, hw⟩ := List.mem_filterMap.mp h
        obtain ⟨_, _, hw, _⟩ := (mismatch?_eq_some_iff hp).mp hw
        cases hw
    · obtain ⟨row, hrow, hw⟩ := List.mem_map.mp h
      cases hw
      exact ⟨rfl, row, hrow, rfl⟩
  · rintro ⟨rfl, row, hrow, rfl⟩
    exact List.mem_append_right _ (List.mem_map.mpr ⟨row, hrow, rfl⟩)

theorem defaultMismatch_mem_warningsOf_iff {a b : Json.Value} :
    .defaultMismatch f name a b ∈ warningsOf function params vars circles left ↔
      f = function ∧ ∃ leaf, (name, leaf) ∈ vars ∧ ∃ p ∈ params.values, p.path = leaf.path ∧
        leaf.default = some a ∧ p.default = some b ∧ a.same b = false := by
  constructor
  · intro h
    rcases List.mem_append.mp h with h | h
    · rcases List.mem_append.mp h with h | h
      · obtain ⟨_, hw⟩ := hcircles _ h
        cases hw
      · obtain ⟨⟨key, leaf⟩, he, hw⟩ := List.mem_filterMap.mp h
        obtain ⟨_, _, hw, hdefaults⟩ := (mismatch?_eq_some_iff hp).mp hw
        cases hw
        exact ⟨rfl, leaf, he, hdefaults⟩
    · obtain ⟨_, _, hw⟩ := List.mem_map.mp h
      cases hw
  · rintro ⟨rfl, leaf, he, hdefaults⟩
    refine List.mem_append_left _ (List.mem_append_right _ ?_)
    exact List.mem_filterMap.mpr
      ⟨(name, leaf), he, (mismatch?_eq_some_iff hp).mpr ⟨a, b, rfl, hdefaults⟩⟩

/-- The warnings about defaults come in the order of the variables, with one at most for each. -/
theorem mismatched_warningsOf_sublist :
    ((warningsOf function params vars circles left).filterMap Warning.mismatched?).Sublist
      vars.keys := by
  have hnone : ∀ ws : List Warning, (∀ w ∈ ws, w.mismatched? = none) →
      ws.filterMap Warning.mismatched? = [] := fun ws h => List.filterMap_eq_nil_iff.mpr h
  rw [warningsOf, List.filterMap_append, List.filterMap_append, hnone circles,
    hnone (left.map _), List.nil_append, List.append_nil, List.filterMap_filterMap, Table.keys]
  · refine filterMap_sublist_map fun e _ k hk => ?_
    obtain ⟨w, hw, hk⟩ := Option.bind_eq_some_iff.mp hk
    obtain ⟨a, b, rfl, _⟩ := (mismatch?_eq_some_iff hp).mp hw
    exact (Option.some.inj hk).symm
  · intro w hw
    obtain ⟨row, _, rfl⟩ := List.mem_map.mp hw
    rfl
  · intro w hw
    obtain ⟨chain, rfl⟩ := hcircles w hw
    rfl

end

/-! ## All variables -/

/-- The documented parameters of a comment with those that they stand for; none without a
comment. -/
def documented (r : Registry) (doc : Option Doc) : List Parameter :=
  (doc.map fun d => (Documented.expanded r d.params).values).getD []

/-- A row that takes the place of a variable : an innermost documented parameter below its
path. -/
def StandsIn (r : Registry) (ps : List Parameter) (vars : Variables) (row : Parameter) : Prop :=
  ∃ e ∈ vars, ∃ p ∈ ps, p.path = e.2.path ∧ GivesWay r ps e.2 p ∧
    ∃ q, Innermost ps e.2.path q ∧ CalledByLastKey row q

/-- The variables `vars` beside the documented parameters `ps` have become the rows `kept`,
followed by the rows `added`, with these warnings. -/
structure Accounted (function : String) (r : Registry) (ps : List Parameter)
    (vars kept added : Variables) (warnings : List Warning) : Prop where
  /-- No row has taken the place of another. -/
  nodup : (Table.keys (kept ++ added)).Nodup
  /-- The variables that stay do so under their keys and in their order. -/
  order : kept.keys.Sublist vars.keys
  undocumented : ∀ e ∈ vars, (∀ p ∈ ps, p.path ≠ e.2.path) → e ∈ kept
  documented : ∀ e ∈ vars, ∀ p ∈ ps, p.path = e.2.path → ¬GivesWay r ps e.2 p →
    ∃ row, (e.1, row) ∈ kept ∧ row.FilledFrom e.2 p
  replaced : ∀ e ∈ vars, ∀ p ∈ ps, p.path = e.2.path → GivesWay r ps e.2 p →
    e.1 ∉ kept.keys ∧ ∀ q, Innermost ps e.2.path q → ∃ row, CalledByLastKey row q ∧
      ((row.name, row) ∈ added ∨ .aliasCollision function row.name ∈ warnings)
  /-- Nothing else is added. -/
  added_only : ∀ e ∈ added, e.1 = e.2.name ∧ StandsIn r ps vars e.2
  /-- What is reported is that the name of a row is taken. -/
  collision : ∀ f name, .aliasCollision f name ∈ warnings → f = function ∧
    name ∈ Table.keys (kept ++ added) ∧ ∃ row, StandsIn r ps vars row ∧ row.name = name
  mismatch : ∀ f name a b, .defaultMismatch f name a b ∈ warnings ↔ f = function ∧
    ∃ leaf, (name, leaf) ∈ vars ∧ ∃ p ∈ ps, p.path = leaf.path ∧
      leaf.default = some a ∧ p.default = some b ∧ a.same b = false
  /-- No variable is warned of twice. -/
  mismatch_once : (warnings.filterMap Warning.mismatched?).Sublist vars.keys

/-- What may become of a variable. -/
theorem resolve_cases (hp : Keyed params) (leaf : Parameter) :
    ((∀ p ∈ params.values, p.path ≠ leaf.path) ∧ resolve r params leaf = .kept leaf) ∨
      ∃ p ∈ params.values, p.path = leaf.path ∧
        ((¬GivesWay r params.values leaf p ∧ resolve r params leaf = .kept (leaf.merge p)) ∨
          (GivesWay r params.values leaf p ∧
            resolve r params leaf = .replaced (params.innermost leaf.path))) := by
  by_cases h : ∀ p ∈ params.values, p.path ≠ leaf.path
  · exact Or.inl ⟨h, resolve_of_undocumented hp h⟩
  · simp only [not_forall, not_not] at h
    obtain ⟨p, hmem, hpath⟩ := h
    have hfind := hp.find?_eq_some_iff.mpr ⟨hmem, hpath⟩
    refine Or.inr ⟨p, hmem, hpath, ?_⟩
    by_cases hway : GivesWay r params.values leaf p
    · exact Or.inr ⟨hway, resolve_of_givesWay hfind hway⟩
    · exact Or.inl ⟨hway, resolve_of_documented hfind hway⟩

theorem standsIn_of_mem_rows (hp : Keyed params) {row : Parameter}
    (h : row ∈ vars.flatMap fun e => (resolve r params e.2).rows) :
    StandsIn r params.values vars row := by
  obtain ⟨e, he, hrow⟩ := List.mem_flatMap.mp h
  rcases resolve_cases (r := r) hp e.2 with ⟨_, heq⟩ | ⟨p, hmem, hpath, ⟨_, heq⟩ | ⟨hway, heq⟩⟩
  · rw [heq] at hrow
    cases hrow
  · rw [heq] at hrow
    cases hrow
  · rw [heq] at hrow
    obtain ⟨q, hq, hcalled⟩ := mem_innermost_iff.mp hrow
    exact ⟨e, he, p, hmem, hpath, hway, q, hq, hcalled⟩

/-- The rows of the variables that stay. -/
def keptRows (r : Registry) (params : Documented) (vars : Variables) : Variables :=
  vars.filterMap fun e => (resolve r params e.2).row?.map fun row => (e.1, row)

theorem mem_keptRows {e : String × Parameter} {row : Parameter} (he : e ∈ vars)
    (h : resolve r params e.2 = .kept row) : (e.1, row) ∈ keptRows r params vars :=
  List.mem_filterMap.mpr ⟨e, he, by rw [h]; rfl⟩

theorem keys_keptRows_sublist : (keptRows r params vars).keys.Sublist vars.keys := by
  rw [keptRows, Table.keys, List.map_filterMap]
  refine filterMap_sublist_map fun e _ k hk => ?_
  obtain ⟨f, hf, rfl⟩ := Option.map_eq_some_iff.mp hk
  obtain ⟨row, _, rfl⟩ := Option.map_eq_some_iff.mp hf
  rfl

theorem not_mem_keys_keptRows (hvars : vars.keys.Nodup) {e : String × Parameter}
    {rows : List Parameter} (he : e ∈ vars) (h : resolve r params e.2 = .replaced rows) :
    e.1 ∉ (keptRows r params vars).keys := by
  intro hk
  obtain ⟨f, hf, hkey⟩ := List.mem_map.mp hk
  obtain ⟨g, hg, hrow⟩ := List.mem_filterMap.mp hf
  obtain ⟨row, hrow, rfl⟩ := Option.map_eq_some_iff.mp hrow
  obtain rfl : g = e := List.inj_on_of_nodup_map hvars hg he hkey
  rw [h] at hrow
  cases hrow

/-- The rows of a contract beside a comment are those of the variables that stay, followed by some
of those that take the place of variables, no name twice. The names of the others are reported. -/
theorem exists_added (r : Registry) (doc : Doc) (decl : Declaration) :
    ∃ added left : List Parameter,
      (Contract.ofDeclaration r (some doc) decl).1.vars =
        keptRows r (Documented.expanded r doc.params) (ofPatterns decl.params) ++ byName added ∧
      (added ++ left).Perm ((ofPatterns decl.params).flatMap fun e =>
        (resolve r (Documented.expanded r doc.params) e.2).rows) ∧
      (∀ p ∈ left, .aliasCollision decl.name p.name ∈
        (Contract.ofDeclaration r (some doc) decl).2) ∧
      (Contract.ofDeclaration r (some doc) decl).1.vars.keys.Nodup := by
  have hkept :
      (keptRows r (Documented.expanded r doc.params) (ofPatterns decl.params)).keys.Nodup :=
    (nodup_ofPatterns decl.params).sublist keys_keptRows_sublist
  obtain ⟨added, left, heq, hperm, hnodup, -⟩ := addRows_eq decl.name
    ((ofPatterns decl.params).flatMap fun e =>
      (resolve r (Documented.expanded r doc.params) e.2).rows) hkept
  rw [keptRows] at heq
  have hrows : (Contract.ofDeclaration r (some doc) decl).1.vars =
      keptRows r (Documented.expanded r doc.params) (ofPatterns decl.params) ++ byName added := by
    simp only [Contract.ofDeclaration, reconcile, heq]
    rfl
  refine ⟨added, left, hrows, hperm, fun p hp => ?_, hrows ▸ hnodup⟩
  simp only [Contract.ofDeclaration, reconcile, heq]
  exact List.mem_append_right _ (List.mem_append_right _ (List.mem_map.mpr ⟨p, hp, rfl⟩))

/-- Each row of a contract is that of a variable that stays, or takes the place of one. -/
theorem exists_of_mem_vars {doc : Doc} {decl : Declaration} {e : String × Parameter}
    (he : e ∈ (Contract.ofDeclaration r (some doc) decl).1.vars) :
    ∃ f ∈ ofPatterns decl.params,
      (f.1 = e.1 ∧ (resolve r (Documented.expanded r doc.params) f.2).row? = some e.2) ∨
        e.2 ∈ (resolve r (Documented.expanded r doc.params) f.2).rows := by
  obtain ⟨added, left, hresult, hperm, -⟩ := exists_added r doc decl
  rw [hresult] at he
  rcases List.mem_append.mp he with he | he
  · obtain ⟨f, hf, hrow⟩ := List.mem_filterMap.mp he
    obtain ⟨row, hresolve, rfl⟩ := Option.map_eq_some_iff.mp hrow
    exact ⟨f, hf, Or.inl ⟨rfl, hresolve⟩⟩
  · obtain ⟨p, hp, rfl⟩ := List.mem_map.mp he
    obtain ⟨f, hf, hrow⟩ := List.mem_flatMap.mp (hperm.mem_iff.mp (List.mem_append_left left hp))
    exact ⟨f, hf, Or.inr hrow⟩

theorem Accounted.of_keyed (hp : Keyed params) (hvars : vars.keys.Nodup)
    {added left : List Parameter} {circles : List Warning}
    (hperm : (added ++ left).Perm (vars.flatMap fun e => (resolve r params e.2).rows))
    (hnodup : (Table.keys (keptRows r params vars ++ byName added)).Nodup)
    (hleft : ∀ p ∈ left, p.name ∈ Table.keys (keptRows r params vars ++ byName added))
    (hcircles : ∀ w ∈ circles, ∃ chain, w = .circularAlias chain) :
    Accounted function r params.values vars (keptRows r params vars) (byName added)
      (warningsOf function params vars circles left) where
  nodup := hnodup
  order := keys_keptRows_sublist
  undocumented e he h := mem_keptRows he (resolve_of_undocumented hp h)
  documented e he p hmem hpath hway :=
    ⟨e.2.merge p, mem_keptRows he
      (resolve_of_documented (hp.find?_eq_some_iff.mpr ⟨hmem, hpath⟩) hway),
      Parameter.filledFrom_merge e.2 p⟩
  replaced e he p hmem hpath hway := by
    have heq := resolve_of_givesWay (hp.find?_eq_some_iff.mpr ⟨hmem, hpath⟩) hway
    refine ⟨not_mem_keys_keptRows hvars he heq, fun q hq => ?_⟩
    obtain ⟨row, hrow⟩ := hq.exists_calledByLastKey
    have hrows : row ∈ added ++ left := by
      refine hperm.mem_iff.mpr (List.mem_flatMap.mpr ⟨e, he, ?_⟩)
      rw [heq]
      exact mem_innermost_iff.mpr ⟨q, hq, hrow⟩
    refine ⟨row, hrow, (List.mem_append.mp hrows).imp (fun h => ?_) fun h => ?_⟩
    · exact List.mem_map.mpr ⟨row, h, rfl⟩
    · exact (aliasCollision_mem_warningsOf_iff hp hcircles).mpr ⟨rfl, row, h, rfl⟩
  added_only e he := by
    obtain ⟨row, hrow, rfl⟩ := List.mem_map.mp he
    exact ⟨rfl, standsIn_of_mem_rows hp (hperm.mem_iff.mp (List.mem_append_left left hrow))⟩
  collision f name h := by
    obtain ⟨rfl, row, hrow, rfl⟩ := (aliasCollision_mem_warningsOf_iff hp hcircles).mp h
    exact ⟨rfl, hleft row hrow, row, standsIn_of_mem_rows hp
      (hperm.mem_iff.mp (List.mem_append_right added hrow)), rfl⟩
  mismatch _ _ _ _ := defaultMismatch_mem_warningsOf_iff hp hcircles
  mismatch_once := mismatched_warningsOf_sublist hp hcircles

/-- Without documented parameters all variables stay as they are. -/
theorem Accounted.of_nil (hvars : vars.keys.Nodup) :
    Accounted function r [] vars vars [] [] where
  nodup := by rwa [List.append_nil]
  order := .refl _
  undocumented _ he _ := he
  documented _ _ _ hp := (List.not_mem_nil hp).elim
  replaced _ _ _ hp := (List.not_mem_nil hp).elim
  added_only _ he := (List.not_mem_nil he).elim
  collision _ _ h := (List.not_mem_nil h).elim
  mismatch _ _ _ _ := by simp
  mismatch_once := List.nil_sublist _

/-- Beside a comment whose parameters stand under their own paths, or beside none, every
variable, every row that takes the place of one, and every warning is accounted for. -/
theorem reconcile_accounted (function : String) (r : Registry) {vars : Variables}
    (hvars : vars.keys.Nodup) {doc : Option Doc} (hdoc : ∀ d ∈ doc, Keyed d.params) :
    ∃ kept added, (vars.reconcile function doc r).1 = kept ++ added ∧
      Accounted function r (documented r doc) vars kept added
        (vars.reconcile function doc r).2 := by
  cases doc with
  | none => exact ⟨vars, [], (List.append_nil vars).symm, .of_nil hvars⟩
  | some d =>
    have hp : Keyed (Documented.expanded r d.params) := (hdoc d rfl).expanded
    have hkept : (keptRows r (Documented.expanded r d.params) vars).keys.Nodup :=
      hvars.sublist keys_keptRows_sublist
    obtain ⟨added, left, heq, hperm, hnodup, hleft⟩ := addRows_eq function
      (vars.flatMap fun e => (resolve r (Documented.expanded r d.params) e.2).rows) hkept
    have hreconcile : vars.reconcile function (some d) r =
        (keptRows r (Documented.expanded r d.params) vars ++ byName added,
          warningsOf function (Documented.expanded r d.params) vars
            (Documented.circles r d.params) left) := by
      rw [keptRows] at heq
      simp only [reconcile, heq]
      rfl
    rw [hreconcile]
    exact ⟨_, byName added, rfl, .of_keyed hp hvars hperm hnodup hleft fun _ =>
      circularAlias_of_mem_circles⟩

/-- A type with two properties. -/
def queryTypes : Registry :=
  ⟨[{ name := "Q", base := "Object", props :=
    [("color", { name := "color" }), ("size", { name := "size" })] }], by decide⟩

/-- A variable that is called like one of the properties, and has a default. -/
def sizeVar : Parameter := { name := "size", path := ⟨"1"⟩, default := some (.bool true) }

/-- That variable behind another. -/
def queryVars : Variables := [("query", { name := "query", path := ⟨"0"⟩ }), ("size", sizeVar)]

/-- What is said of the first variable : it is of the type. -/
def queryEntry : Parameter := { name := "query", path := ⟨"0"⟩, type := some "Q" }

/-- What is said of the second variable : another default. -/
def sizeEntry : Parameter := { name := "size", path := ⟨"1"⟩, default := some (.bool false) }

/-- The comment that says both. -/
def queryDoc : Doc :=
  { kind := .params, start := 0, stop := 1, params := [(⟨"0"⟩, queryEntry), (⟨"1"⟩, sizeEntry)] }

/-- The property below the first variable that is called like the second. -/
def sizeProperty : Parameter :=
  { name := "size", path := ⟨"0.size"⟩, isOptional := some false }

theorem documented_queryDoc : documented queryTypes (some queryDoc) =
    [queryEntry, sizeEntry, { name := "color", path := ⟨"0.color"⟩, isOptional := some false },
      sizeProperty] := by
  have hexpand : queryTypes.expand "Q" = (queryTypes.find? "Q", []) := by
    rw [Registry.expand_of_isObject (r := queryTypes) rfl rfl]
    rfl
  simp only [documented, Option.map_some, Option.getD_some, Documented.expanded, queryDoc,
    List.flatMap_cons, Documented.implied, Documented.definition, queryEntry, hexpand]
  rfl

theorem reconcile_accounted_query : queryVars.keys.Nodup ∧ Keyed queryDoc.params ∧
    .defaultMismatch "f" "size" (.bool true) (.bool false) ∈
      (queryVars.reconcile "f" (some queryDoc) queryTypes).2 ∧
    .aliasCollision "f" "size" ∈ (queryVars.reconcile "f" (some queryDoc) queryTypes).2 ∧
    ∃ row, ("size", row) ∈ (queryVars.reconcile "f" (some queryDoc) queryTypes).1 ∧
      row.default = some (.bool true) := by
  have hvars : queryVars.keys.Nodup := by decide
  have hp : Keyed queryDoc.params := ⟨by decide, by simp [queryDoc, queryEntry, sizeEntry]⟩
  have hdoc : ∀ d ∈ some queryDoc, Keyed d.params := by simpa using hp
  obtain ⟨kept, added, heq, h⟩ := reconcile_accounted "f" queryTypes hvars hdoc
  rw [documented_queryDoc] at h
  have hquery : ("query", { name := "query", path := ⟨"0"⟩ }) ∈ queryVars := by simp [queryVars]
  have hsize : ("size", sizeVar) ∈ queryVars := by simp [queryVars]
  -- the second variable stays
  obtain ⟨row, hrow, hfilled⟩ := h.documented _ hsize sizeEntry (by simp) rfl fun hway => by
    obtain ⟨t, d, ht, -⟩ := hway.object
    cases ht
  -- the first gives way to properties, one of which would be called like the second
  obtain ⟨-, hinner⟩ := h.replaced _ hquery queryEntry (by simp) rfl
    ⟨rfl, ⟨"Q", _, rfl, rfl, rfl⟩, sizeProperty, by simp, by decide⟩
  obtain ⟨other, hcalled, hother⟩ := hinner sizeProperty ⟨by simp, by decide, by decide⟩
  have hname : other.name = "size" := (Option.some.inj hcalled.lastKey).symm
  rw [hname] at hother
  have hnodup := h.nodup
  rw [Table.keys, List.map_append] at hnodup
  have hcollision := hother.resolve_left fun hadded => List.disjoint_of_nodup_append hnodup
    (List.mem_map.mpr ⟨_, hrow, rfl⟩) (List.mem_map.mpr ⟨_, hadded, rfl⟩)
  have hmismatch := (h.mismatch "f" "size" (.bool true) (.bool false)).mpr
    ⟨rfl, sizeVar, hsize, sizeEntry, by simp, rfl, rfl, rfl, rfl⟩
  refine ⟨hvars, hp, hmismatch, hcollision, row, ?_, hfilled.default⟩
  rw [heq]
  exact List.mem_append_left _ hrow

end Variables

end CallContract
