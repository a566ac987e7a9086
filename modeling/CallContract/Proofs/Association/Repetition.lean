import CallContract.Proofs.Association.Hoisting
import CallContract.Proofs.Registry.Recording

/-!
# A text that is read twice

Once a text has been read, the registry has all its named types. If their names are distinct, a
second reading finds each of them there already, so nothing changes on its way
(`Registry.registerDocs_eq_self`) and each function is looked at with the same types as with
`hoist`. To read a text twice gives what `hoist` gives at once (`extract_again`).
-/

namespace CallContract

open Extraction (docsOf ofFile registryAt registry_ofFile)

/-- Of comments whose types have distinct names all types are there once they are recorded. -/
theorem Registry.mem_registerDocs {docs : List Doc} {d : TypeDef} (r : Registry)
    (hnames : (TypeDef.names (typeDefs docs)).Nodup) (h : d ∈ typeDefs docs) :
    d ∈ (r.registerDocs docs).defs :=
  mem_registerAll hnames h

/-- The types of comments that have been read are not recorded anew. -/
theorem Registry.registerDocs_eq_self {docs near : List Doc} (r : Registry)
    (hnames : (TypeDef.names (typeDefs docs)).Nodup) (hsub : near ⊆ docs) :
    (r.registerDocs docs).registerDocs near = r.registerDocs docs := by
  refine registerAll_eq_self fun d hd => r.mem_registerDocs hnames ?_
  obtain ⟨doc, hdoc, hname⟩ := List.mem_filterMap.mp hd
  exact List.mem_filterMap.mpr ⟨doc, hsub hdoc, hname⟩

/-- On a second reading each declaration is looked at with the types that it has with `hoist`. -/
theorem Extraction.registryAt_again {comments : List Source.Comment} (r : Registry)
    (hnames : (TypeDef.names (typeDefs (docsOf comments))).Nodup) (decl : Declaration) :
    registryAt false (r.registerDocs (docsOf comments)) comments decl =
      registryAt true r comments decl := by
  have hsub : List.Sublist (docsOf (comments.takeWhile fun c => c.start < decl.stop))
      (docsOf comments) := (List.takeWhile_sublist _).filterMap _
  exact r.registerDocs_eq_self hnames hsub.subset

namespace Source

/-- If the types of a text have distinct names, then reading it twice without `hoist`, the second
time with the registry of the first, gives the contracts, the warnings and the registry that
reading it once with `hoist` gives. -/
theorem extract_again {source : String} {file : File} (h : readModule source.toList = .ok file)
    (hnames : (TypeDef.names (typeDefs (docsOf file.comments))).Nodup) (r : Registry) :
    ∃ hoisted first second, extract true r source = .ok hoisted ∧
      extract false r source = .ok first ∧ extract false first.registry source = .ok second ∧
      second.contracts = hoisted.contracts ∧ second.warnings = hoisted.warnings ∧
      second.registry.defs = hoisted.registry.defs := by
  have hfirst : (ofFile false r file).registry = r.registerDocs (docsOf file.comments) :=
    registry_ofFile false r file
  have houtcomes : (file.declarations.map fun decl => Contract.ofDeclaration
      (registryAt false (ofFile false r file).registry file.comments decl)
      (Association.attached? (docsOf file.comments) decl) decl) =
      file.declarations.map fun decl => Contract.ofDeclaration
        (registryAt true r file.comments decl)
        (Association.attached? (docsOf file.comments) decl) decl := by
    refine List.map_congr_left fun decl _ => ?_
    rw [hfirst, Extraction.registryAt_again r hnames]
  obtain ⟨hcontracts, hwarnings⟩ := outcomes_of_readModule h true r
  obtain ⟨hcontracts', hwarnings'⟩ := outcomes_of_readModule h false (ofFile false r file).registry
  refine ⟨ofFile true r file, ofFile false r file,
    ofFile false (ofFile false r file).registry file, by rw [extract, h]; rfl,
    by rw [extract, h]; rfl, by rw [extract, h]; rfl, ?_, ?_, ?_⟩
  · rw [hcontracts, hcontracts', houtcomes]
  · rw [hwarnings, hwarnings', houtcomes]
  · rw [registry_ofFile, hfirst, registry_ofFile,
      r.registerDocs_eq_self hnames (List.Subset.refl _)]

/-- The first reading does not know the type, the second does, as with `hoist`. -/
theorem extract_again_typeBehindUse :
    ∃ file, readModule typeBehindUse.toList = .ok file ∧
      (TypeDef.names (typeDefs (docsOf file.comments))).Nodup ∧
      ∃ hoisted first second, extract true .empty typeBehindUse = .ok hoisted ∧
        extract false .empty typeBehindUse = .ok first ∧
        extract false first.registry typeBehindUse = .ok second ∧
        second.contracts = hoisted.contracts ∧ second.warnings = hoisted.warnings ∧
        second.registry.defs = hoisted.registry.defs ∧
        first.contracts.map (fun c => c.vars.keys) = [["p"]] ∧
        second.contracts.map (fun c => c.vars.keys) = [["x"]] := by
  have h : readModule typeBehindUse.toList = .ok ⟨[⟨"f", [.ident "p"], 20, 36, none⟩],
      [⟨true, "* @param \x7bP\x7d p ", 0, 19⟩, ⟨true, "* @typedef P\n@prop x ", 37, 62⟩]⟩ := by
    cbv
  have hnames : TypeDef.names (typeDefs (docsOf [⟨true, "* @param \x7bP\x7d p ", 0, 19⟩,
      ⟨true, "* @typedef P\n@prop x ", 37, 62⟩])) = ["P"] := by cbv
  have hnodup := hnames ▸ List.nodup_singleton "P"
  obtain ⟨x, y, z, hx, hy, hz, hcontracts, hwarnings, hregistry⟩ := extract_again h hnodup .empty
  refine ⟨_, h, hnodup, x, y, z, hx, hy, hz, hcontracts, hwarnings, hregistry, ?_, ?_⟩
  · rw [extract, h] at hy
    obtain rfl := Except.ok.inj hy
    cbv
  · rw [hcontracts]
    rw [extract, h] at hx
    obtain rfl := Except.ok.inj hx
    cbv

end Source

end CallContract
