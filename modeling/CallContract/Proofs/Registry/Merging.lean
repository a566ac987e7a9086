import CallContract.Proofs.Association.Hoisting
import CallContract.Proofs.Registry.Recording

/-!
# Registries of several texts

Named types can be collected with one registry that goes from text to text, or with one registry
for each text, and these merged in the same order. The result is the same, definitions and order
(`Source.registry_extractInTurn`) : what is recorded does not depend on what is there, and to
record a definition in a registry that is merged is to record it in the result
(`Registry.extend_register`).
-/

namespace CallContract

namespace TypeDef

variable {d e : TypeDef}

/-- A definition takes the place of the one of its name that was put before. -/
theorem put_put_self (h : e.name = d.name) : ∀ ds : List TypeDef, put (put ds e) d = put ds d
  | [] => if_pos h
  | f :: ds => by
    by_cases hf : f.name = e.name
    · rw [put, if_pos hf, put, if_pos h, put, if_pos (hf.trans h)]
    · have hfd : f.name ≠ d.name := h ▸ hf
      rw [put, if_neg hf, put, if_neg hfd, put_put_self h ds, put, if_neg hfd]

/-- A definition whose name is there moves nothing, so another one can be put before it or after
it. -/
theorem put_put_comm (hne : e.name ≠ d.name) :
    ∀ {ds : List TypeDef}, d.name ∈ names ds → put (put ds e) d = put (put ds d) e
  | f :: ds, h => by
    by_cases hd : f.name = d.name
    · have hfe : f.name ≠ e.name := fun hfe => hne (hfe.symm.trans hd)
      have hde : d.name ≠ e.name := Ne.symm hne
      rw [put, if_neg hfe, put, if_pos hd, put, if_pos hd, put, if_neg hde]
    · have hds : d.name ∈ names ds := (List.mem_cons.mp h).resolve_left (Ne.symm hd)
      by_cases he : f.name = e.name
      · rw [put, if_pos he, put, if_neg hne, put, if_neg hd, put, if_pos he]
      · rw [put, if_neg he, put, if_neg hd, put_put_comm hne hds, put, if_neg hd, put, if_neg he]

end TypeDef

namespace Registry

variable {d e : TypeDef}

theorem register_register_self (r : Registry) (h : e.name = d.name) :
    (r.register e).register d = r.register d :=
  eq_of_defs (TypeDef.put_put_self h r.defs)

theorem mem_names_register (r : Registry) (d : TypeDef) : d.name ∈ (r.register d).names :=
  TypeDef.name_mem_names (TypeDef.mem_put_self d r.defs)

theorem mem_names_register_of_mem {r : Registry} {name : String} (h : name ∈ r.names) :
    name ∈ (r.register e).names := by
  unfold names register
  rw [TypeDef.names_put]
  split
  · exact h
  · exact List.mem_append_left _ h

/-- A definition whose name is there can be recorded before others of other names. -/
theorem register_registerAll : ∀ {ds : List TypeDef} {r : Registry}, d.name ∈ r.names →
    d.name ∉ TypeDef.names ds → (r.registerAll ds).register d = (r.register d).registerAll ds
  | [], _, _, _ => rfl
  | e :: ds, r, h, hds => by
    rw [TypeDef.names_cons, List.mem_cons, not_or] at hds
    have hcomm : (r.register e).register d = (r.register d).register e :=
      eq_of_defs (TypeDef.put_put_comm (Ne.symm hds.1) h)
    have ih := register_registerAll (r := r.register e) (mem_names_register_of_mem h) hds.2
    rw [hcomm] at ih
    exact ih

/-- Recording definitions into which one is put is recording that one behind them. -/
theorem registerAll_put : ∀ {ds : List TypeDef} (r : Registry), (TypeDef.names ds).Nodup →
    r.registerAll (TypeDef.put ds d) = (r.registerAll ds).register d
  | [], _, _ => rfl
  | e :: ds, r, hnodup => by
    rw [TypeDef.names_cons, List.nodup_cons] at hnodup
    by_cases he : e.name = d.name
    · have hd : d.name ∈ (r.register e).names := he ▸ mem_names_register r e
      have hmoved := register_registerAll hd (he ▸ hnodup.1)
      rw [register_register_self r he] at hmoved
      rw [TypeDef.put, if_pos he]
      exact hmoved.symm
    · rw [TypeDef.put, if_neg he]
      exact registerAll_put (r.register e) hnodup.2

/-- To merge a registry in which a definition is recorded is to merge it and record the
definition. -/
theorem extend_register (r s : Registry) (d : TypeDef) :
    r.extend (s.register d) = (r.extend s).register d :=
  registerAll_put r s.nodup

theorem extend_registerAll (r : Registry) : ∀ (ds : List TypeDef) (s : Registry),
    r.extend (s.registerAll ds) = (r.extend s).registerAll ds
  | [], _ => rfl
  | d :: ds, s => by
    have ih := extend_registerAll r ds (s.register d)
    rw [extend_register] at ih
    exact ih

/-- To merge the registry of some comments is to record their named types. -/
theorem extend_registerDocs_empty (r : Registry) (docs : List Doc) :
    r.extend (empty.registerDocs docs) = r.registerDocs docs :=
  extend_registerAll r (typeDefs docs) empty

end Registry

namespace Source

open Extraction (docsOf ofFile registry_ofFile)

/-- The registry that a text leaves is the one that it leaves on its own, merged into the one that
it starts with. -/
theorem registry_extract {source : String} {file : File} (h : readModule source.toList = .ok file)
    (hoist : Bool) (r : Registry) : ∃ x fresh, extract hoist r source = .ok x ∧
      extract hoist .empty source = .ok fresh ∧ x.registry = r.extend fresh.registry := by
  refine ⟨_, _, extract_of_readModule h hoist r, extract_of_readModule h hoist .empty, ?_⟩
  rw [registry_ofFile, registry_ofFile, Registry.extend_registerDocs_empty]

/-- Texts that are read in turn with one registry leave the definitions, in their order, that the
registries of the texts on their own give when they are merged in turn. -/
theorem registry_extractInTurn (hoist : Bool) : ∀ {sources : List String} (r : Registry),
    (∀ source ∈ sources, ∃ file, readModule source.toList = .ok file) →
      ∃ xs, List.Forall₂ (fun source x => extract hoist .empty source = .ok x) sources xs ∧
        (extractInTurn hoist r sources).2.defs =
          (xs.foldl (fun s x => s.extend x.registry) r).defs
  | [], _, _ => ⟨[], .nil, rfl⟩
  | source :: sources, r, h => by
    obtain ⟨⟨file, hfile⟩, hsources⟩ := List.forall_mem_cons.mp h
    obtain ⟨x, fresh, hx, hfresh, hregistry⟩ := registry_extract hfile hoist r
    obtain ⟨xs, hxs, hdefs⟩ := registry_extractInTurn hoist x.registry hsources
    refine ⟨fresh :: xs, .cons hfresh hxs, ?_⟩
    rw [extractInTurn, hx]
    simp only
    rw [hdefs, List.foldl_cons, hregistry]

/-- Two texts, of which the second names a type of the first anew, behind one of its own. -/
def redefiningTexts : List String :=
  ["/** @typedef A */ function f() \x7b\x7d /** @typedef B */",
    "/** @typedef C */ /** @typedef \x7bstring\x7d A */"]

/-- The type that is named twice keeps its place and has its second base. -/
theorem registry_extractInTurn_redefiningTexts :
    (∀ source ∈ redefiningTexts, ∃ file, readModule source.toList = .ok file) ∧
      ((extractInTurn false .empty redefiningTexts).2.defs.map fun d => (d.name, d.base)) =
        [("A", "string"), ("B", "Object"), ("C", "Object")] ∧
      ∃ xs, List.Forall₂ (fun source x => extract false .empty source = .ok x) redefiningTexts xs ∧
        ((xs.foldl (fun s x => s.extend x.registry) Registry.empty).defs.map fun d =>
          (d.name, d.base)) = [("A", "string"), ("B", "Object"), ("C", "Object")] := by
  have h : ∀ source ∈ redefiningTexts, ∃ file, readModule source.toList = .ok file := by
    intro source hsource
    rcases List.mem_pair.mp hsource with rfl | rfl
    · exact ⟨⟨[⟨"f", [], 18, 33, none⟩],
        [⟨true, "* @typedef A ", 0, 17⟩, ⟨true, "* @typedef B ", 34, 51⟩]⟩, by cbv⟩
    · exact ⟨⟨[], [⟨true, "* @typedef C ", 0, 17⟩,
        ⟨true, "* @typedef \x7bstring\x7d A ", 18, 44⟩]⟩, by cbv⟩
  have hrun : ((extractInTurn false .empty redefiningTexts).2.defs.map fun d =>
      (d.name, d.base)) = [("A", "string"), ("B", "Object"), ("C", "Object")] := by cbv
  obtain ⟨xs, hxs, hdefs⟩ := registry_extractInTurn false .empty h
  exact ⟨h, hrun, xs, hxs, by rw [← hdefs, hrun]⟩

end Source

end CallContract
