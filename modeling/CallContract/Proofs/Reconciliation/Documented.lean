import CallContract.Proofs.Rows
import CallContract.Proofs.Path.Above
import CallContract.Proofs.Table
import CallContract.Reconciliation

/-!
# Documented parameters and what they stand for

Documented parameters that are keyed by their own paths, no path twice, stay so when those are
added that they stand for (`Keyed.expanded`), so looking one up is finding the one that has the
path (`Keyed.find?_eq_some_iff`). The parameters that take the place of a variable are those
below its path that have none below them, each under the last key of its path
(`mem_innermost_iff`); there are some as soon as any documented parameter is below the path
(`innermost_ne_nil_iff`).
-/

namespace CallContract

/-! ## Paths of documented parameters -/

@[simp] theorem Parameter.path_withComposite (p : Parameter) (c : Option (Shape × String)) :
    (p.withComposite c).path = p.path := by
  cases c <;> rfl

mutual

theorem path_entries : ∀ {p : PropDef} {path : ArgPath}, ∀ e ∈ p.entries path, e.2.path = e.1
  | { props, .. }, path => by
    intro e he
    rw [PropDef.entries] at he
    exact path_propEntries e he

/-- The parameters that properties document are keyed by their own paths. -/
theorem path_propEntries : ∀ {ps : List (String × PropDef)} {parent : ArgPath},
    ∀ e ∈ propEntries parent ps, e.2.path = e.1
  | [], _ => fun _ he => by rw [propEntries] at he; cases he
  | (name, p) :: ps, parent => by
    intro e he
    rw [propEntries] at he
    rcases List.mem_cons.mp he with rfl | he
    · rw [Parameter.ofProp, Parameter.path_withComposite]
    rcases List.mem_append.mp he with he | he
    · exact path_entries e he
    · exact path_propEntries e he

end

namespace Documented

variable {r : Registry} {params : Documented} {path : ArgPath} {entry : Parameter}

/-- Documented parameters under their own paths, no path twice. -/
structure Keyed (params : Documented) : Prop where
  nodup : params.keys.Nodup
  path_eq : ∀ e ∈ params, e.2.path = e.1

theorem path_implied (path : ArgPath) (p : Parameter) :
    ∀ e ∈ implied r path p, e.2.path = e.1 := by
  unfold implied
  split
  · exact fun _ he => (List.not_mem_nil he).elim
  · split
    · exact path_propEntries
    · exact fun _ he => (List.not_mem_nil he).elim

theorem nodup_foldl_insertNew : ∀ (l : List (ArgPath × Parameter)) {t : Documented},
    t.keys.Nodup → (l.foldl (fun t e => t.insertNew e.1 e.2) t).keys.Nodup
  | [], _, h => h
  | e :: l, _, h => nodup_foldl_insertNew l (Table.nodup_insertNew e.1 e.2 h)

theorem prefix_foldl_insertNew : ∀ (l : List (ArgPath × Parameter)) (t : Documented),
    t <+: l.foldl (fun (t : Documented) e => t.insertNew e.1 e.2) t
  | [], _ => List.prefix_rfl
  | e :: l, t => (Table.prefix_insertNew t e.1 e.2).trans (prefix_foldl_insertNew l _)

/-- What is documented stays as it is, ahead of the parameters that it stands for. -/
theorem prefix_expanded : params <+: expanded r params := prefix_foldl_insertNew _ _

/-- The parameters that others stand for come under their own paths too. -/
theorem Keyed.expanded (h : Keyed params) : Keyed (expanded r params) where
  nodup := nodup_foldl_insertNew _ h.nodup
  path_eq e he := by
    rcases mem_foldl_insertNew he with he | he
    · exact h.path_eq e he
    · obtain ⟨f, _, hf⟩ := List.mem_flatMap.mp he
      exact path_implied f.1 f.2 e hf

theorem Keyed.find?_eq_some_iff (h : Keyed params) :
    params.find? path = some entry ↔ entry ∈ params.values ∧ entry.path = path := by
  rw [Table.find?_eq_some_iff h.nodup]
  constructor
  · intro hm
    exact ⟨List.mem_map.mpr ⟨_, hm, rfl⟩, h.path_eq _ hm⟩
  · rintro ⟨hm, rfl⟩
    obtain ⟨⟨k, p⟩, he, rfl⟩ := List.mem_map.mp hm
    rw [h.path_eq _ he]
    exact he

/-- At the path a parameter of the type is documented. -/
def TypedAt (params : Documented) (path : ArgPath) (t : String) : Prop :=
  ∃ e, params.find? path = some e ∧ e.type = some t

/-! ## Innermost parameters -/

/-- A documented parameter below a path that has none below it. -/
structure Innermost (ps : List Parameter) (path : ArgPath) (p : Parameter) : Prop where
  mem : p ∈ ps
  below : path.isAbove p.path = true
  last : ∀ q ∈ ps, p.path.isAbove q.path = false

/-- A parameter under the last key of its path. -/
structure CalledByLastKey (row p : Parameter) : Prop where
  lastKey : p.path.lastKey? = some row.name
  same : row = { p with name := row.name }

theorem Innermost.exists_calledByLastKey {ps : List Parameter} {p : Parameter}
    (h : Innermost ps path p) : ∃ row, CalledByLastKey row p := by
  obtain ⟨key, hkey⟩ := ArgPath.exists_lastKey?_of_isAbove h.below
  exact ⟨{ p with name := key }, hkey, rfl⟩

/-- No parameter below the path is above one exactly if it is above none at all. -/
theorem mem_filter_under_iff {p : Parameter} :
    p ∈ (params.under path).filter
        (fun p => !(params.under path).any fun q => p.path.isAbove q.path) ↔
      Innermost params.values path p := by
  simp only [under, List.mem_filter, Bool.not_eq_true', List.any_eq_false,
    Bool.not_eq_true, and_imp]
  constructor
  · rintro ⟨⟨hp, hbelow⟩, hlast⟩
    refine ⟨hp, hbelow, fun q hq => Bool.eq_false_iff.mpr fun hpq => ?_⟩
    rw [hlast q hq (ArgPath.isAbove_trans hbelow hpq)] at hpq
    cases hpq
  · exact fun h => ⟨⟨h.mem, h.below⟩, fun q hq _ => h.last q hq⟩

theorem mem_innermost_iff {row : Parameter} : row ∈ params.innermost path ↔
    ∃ p, Innermost params.values path p ∧ CalledByLastKey row p := by
  unfold innermost
  simp only [List.mem_map, mem_filter_under_iff]
  constructor
  · rintro ⟨p, hp, rfl⟩
    obtain ⟨row, hkey, -⟩ := hp.exists_calledByLastKey
    refine ⟨p, hp, ?_, rfl⟩
    rw [hkey]
    rfl
  · rintro ⟨p, hp, hkey, hsame⟩
    refine ⟨p, hp, ?_⟩
    rw [hkey, Option.getD_some]
    exact hsame.symm

theorem innermost_ne_nil_iff :
    params.innermost path ≠ [] ↔ ∃ p ∈ params.values, path.isAbove p.path = true := by
  constructor
  · intro h
    obtain ⟨row, hrow⟩ := List.exists_mem_of_ne_nil _ h
    obtain ⟨p, hp, _⟩ := mem_innermost_iff.mp hrow
    exact ⟨p, hp.mem, hp.below⟩
  · rintro ⟨p, hp, hbelow⟩
    obtain ⟨q, hq, hqbelow, hlast⟩ := ArgPath.exists_innermost (f := Parameter.path) hp hbelow
    have hinner : Innermost params.values path q := ⟨hq, hqbelow, hlast⟩
    obtain ⟨row, hrow⟩ := hinner.exists_calledByLastKey
    exact List.ne_nil_of_mem (mem_innermost_iff.mpr ⟨q, hinner, hrow⟩)

end Documented

end CallContract
