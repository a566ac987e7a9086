import CallContract.Proofs.Path.Above
import CallContract.Proofs.Reconciliation.Account
import Mathlib.Data.List.Perm.Basic

/-!
# Paths of the variables beside their documentation

Each row that a variable becomes has the path of the variable or one below it
(`leadsTo_of_mem_all`), and the rows that take the place of one variable are apart, since none
of them has a documented parameter below it (`Documented.innermost_apart`). So variables whose
paths are apart become rows whose paths are apart (`reconcile_apart`).
-/

namespace CallContract

open Documented (Keyed)

/-- Rows whose paths differ, none of them below another. -/
def PathsApart (rows : List Parameter) : Prop := rows.Pairwise fun a b => a.path.Apart b.path

instance (rows : List Parameter) : Decidable (PathsApart rows) :=
  inferInstanceAs (Decidable (rows.Pairwise fun a b => a.path.Apart b.path))

theorem PathsApart.perm {rows rows' : List Parameter} (h : PathsApart rows)
    (hp : rows.Perm rows') : PathsApart rows' :=
  (hp.pairwise_iff ArgPath.Apart.symm).mp h

/-! ## Innermost parameters -/

theorem Documented.Keyed.paths_distinct {params : Documented} (h : Keyed params) :
    params.values.Pairwise fun a b => a.path ≠ b.path := by
  have hkeys : params.values.map Parameter.path = params.keys := by
    rw [Table.values, List.map_map]
    exact List.map_congr_left h.path_eq
  rw [← List.pairwise_map (R := (· ≠ ·)), hkeys]
  exact h.nodup

theorem Documented.path_of_mem_innermost {params : Documented} {path : ArgPath} {row : Parameter}
    (h : row ∈ params.innermost path) : path.isAbove row.path = true := by
  obtain ⟨p, hp, hrow⟩ := mem_innermost_iff.mp h
  rw [hrow.same]
  exact hp.below

/-- No innermost parameter lies below another. -/
theorem Documented.innermost_apart {params : Documented} (h : Keyed params) (path : ArgPath) :
    PathsApart (params.innermost path) := by
  unfold PathsApart innermost
  rw [List.pairwise_map]
  have hinner : ∀ p ∈ (params.under path).filter
      (fun p => !(params.under path).any fun q => p.path.isAbove q.path),
      Innermost params.values path p := fun p hp => mem_filter_under_iff.mp hp
  have hunder : (params.under path).Pairwise fun a b => a.path ≠ b.path :=
    h.paths_distinct.sublist List.filter_sublist
  refine (hunder.sublist List.filter_sublist).imp_of_mem fun {a b} ha hb hne => ⟨?_, ?_⟩
  · rintro (heq | habove)
    · exact hne heq
    · exact Bool.false_ne_true (((hinner a ha).last b (hinner b hb).mem).symm.trans habove)
  · rintro (heq | habove)
    · exact hne heq.symm
    · exact Bool.false_ne_true (((hinner b hb).last a (hinner a ha).mem).symm.trans habove)

namespace Variables

variable {r : Registry} {params : Documented} {leaf row : Parameter} {vars : Variables}

/-! ## One variable -/

/-- All rows that a variable becomes. -/
def Resolution.all (s : Resolution) : List Parameter := s.row?.toList ++ s.rows

/-- A row has the path of its variable or one below it. -/
theorem leadsTo_of_mem_all (hp : Keyed params) (h : row ∈ (resolve r params leaf).all) :
    leaf.path.LeadsTo row.path := by
  rcases resolve_cases (r := r) hp leaf with ⟨-, heq⟩ | ⟨entry, -, -, ⟨-, heq⟩ | ⟨-, heq⟩⟩
  · rw [heq] at h
    rw [List.mem_singleton.mp h]
    exact Or.inl rfl
  · rw [heq] at h
    rw [List.mem_singleton.mp h]
    exact Or.inl (Parameter.filledFrom_merge leaf entry).path.symm
  · rw [heq] at h
    exact Or.inr (Documented.path_of_mem_innermost h)

/-- The rows that one variable becomes are apart. -/
theorem all_apart (hp : Keyed params) (leaf : Parameter) :
    PathsApart (resolve r params leaf).all := by
  rcases resolve_cases (r := r) hp leaf with ⟨-, heq⟩ | ⟨entry, -, -, ⟨-, heq⟩ | ⟨-, heq⟩⟩
  · rw [heq]
    exact List.pairwise_singleton _ leaf
  · rw [heq]
    exact List.pairwise_singleton _ (leaf.merge entry)
  · rw [heq]
    exact Documented.innermost_apart hp leaf.path

/-! ## All variables -/

/-- Rows are added behind those that are there, or left out. -/
theorem values_addRows_sublist (function : String) : ∀ (rows : List Parameter) (vars : Variables),
    (addRows function vars rows).1.values.Sublist (vars.values ++ rows)
  | [], vars => by rw [addRows, List.append_nil]
  | p :: rows, vars => by
    rw [addRows]
    split
    · exact (values_addRows_sublist function rows vars).trans
        ((List.sublist_cons_self p rows).append_left vars.values)
    · rename_i hc
      have hfresh : p.name ∉ vars.keys := fun hm => hc ((Table.mem_keys_iff vars p.name).mp hm)
      have hvalues : (vars.insert p.name p).values = vars.values ++ [p] := by
        rw [Table.insert_eq_append hfresh, Table.values, Table.values, List.map_append]
        rfl
      have := values_addRows_sublist function rows (vars.insert p.name p)
      rwa [hvalues, List.append_assoc] at this

/-- The rows that stay, and behind them those that take the place of variables, are all rows that
the variables become. -/
theorem rows_perm (r : Registry) (params : Documented) (vars : Variables) :
    (vars.flatMap fun e => (resolve r params e.2).all).Perm
      ((keptRows r params vars).values ++
        vars.flatMap fun e => (resolve r params e.2).rows) := by
  have hkept : (keptRows r params vars).values =
      vars.flatMap fun e => (resolve r params e.2).row?.toList := by
    rw [keptRows, Table.values, List.map_filterMap, List.filterMap_eq_flatMap_toList]
    simp
  rw [hkept]
  exact (List.flatMap_append_perm vars _ _).symm

/-- Variables whose paths differ, none of them below another, are reconciled with a comment whose
parameters stand under their own paths to rows that are so too. -/
theorem reconcile_apart (function : String) (r : Registry) {vars : Variables} {doc : Option Doc}
    (hvars : PathsApart vars.values) (hdoc : ∀ d ∈ doc, Keyed d.params) :
    PathsApart (vars.reconcile function doc r).1.values := by
  cases doc with
  | none => exact hvars
  | some d =>
    have hp : Keyed (Documented.expanded r d.params) := (hdoc d rfl).expanded
    have hall : PathsApart (vars.flatMap fun e =>
        (resolve r (Documented.expanded r d.params) e.2).all) := by
      refine List.pairwise_flatMap.mpr ⟨fun e _ => all_apart hp e.2, ?_⟩
      refine (List.pairwise_map.mp hvars).imp fun hef a ha b hb => ?_
      exact hef.of_leadsTo (leadsTo_of_mem_all hp ha) (leadsTo_of_mem_all hp hb)
    exact (hall.perm (rows_perm r _ vars)).sublist (values_addRows_sublist function _ _)

theorem reconcile_apart_query : PathsApart queryVars.values ∧ Keyed queryDoc.params ∧
    PathsApart (queryVars.reconcile "f" (some queryDoc) queryTypes).1.values := by
  have hvars : PathsApart queryVars.values := by decide +kernel
  have hp : Keyed queryDoc.params := ⟨by decide, by simp [queryDoc, queryEntry, sizeEntry]⟩
  exact ⟨hvars, hp, reconcile_apart "f" queryTypes hvars (by simpa using hp)⟩

end Variables

end CallContract
