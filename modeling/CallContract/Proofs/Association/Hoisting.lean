import CallContract.Proofs.Association.Documentation

/-!
# What hoisting does not change

With `hoist` all comments are read before the first declaration, without it each declaration
reads those that start before it stops, and the rest are read at the end. Either way every
comment is read once and in order, so the registry that results is the same
(`Extraction.registry_ofFile`), and the comment of a declaration is found among the same
comments. The contracts agree in their names and descriptions (`extract_hoist`) : hoisting is
seen in the variables and in the warnings only.
-/

namespace CallContract

namespace Source

open Association (attached?)
open Extraction (docsOf ofFile registryAt registry_ofFile)

section Order

variable {source : List Char} {l : Lexed} (hl : tokenize source = .ok l)
include hl

/-- The declarations of a text stop in their order. -/
theorem declaration_stops_pairwise {ss : List Statement}
    (hs : statements source l.size l.tokens = .ok ss) :
    (declarations none ss).Pairwise fun d e => d.stop ≤ e.stop := by
  have hpairwise := statements_pairwise (tokensInOrder_of_tokenize hl) hs
  refine (declarations_pairwise hpairwise).imp_of_mem fun {a b} _ hb hab => ?_
  exact hab.trans (among_docsOf hl hs hb).start_lt_stop.le

/-- The comments of a text start in their order. -/
theorem comment_starts_pairwise : l.comments.Pairwise fun c d => c.start ≤ d.start := by
  refine (comments_pairwise hl).imp_of_mem fun {a b} ha _ hab => ?_
  exact (start_lt_stop_of_mem_comments hl ha).le.trans hab

end Order

/-- The contracts and the warnings of a text are those of its declarations beside their attached
comments. -/
theorem outcomes_of_readModule {source : List Char} {file : File}
    (h : readModule source = .ok file) (hoist : Bool) (r : Registry) :
    let outcomes := file.declarations.map fun decl =>
      Contract.ofDeclaration (registryAt hoist r file.comments decl)
        (attached? (docsOf file.comments) decl) decl
    (ofFile hoist r file).contracts = outcomes.map Prod.fst ∧
      (ofFile hoist r file).warnings = outcomes.flatMap Prod.snd := by
  obtain ⟨l, ss, hl, hs, rfl⟩ := declarations_of_readModule h
  exact Extraction.outcomes_ofFile hoist r (declaration_stops_pairwise hl hs)
    (comment_starts_pairwise hl) fun c => start_lt_stop_of_mem_comments hl

/-- The contracts of a text are its declarations beside their attached comments. -/
theorem contracts_of_readModule {source : List Char} {file : File}
    (h : readModule source = .ok file) (hoist : Bool) (r : Registry) :
    (ofFile hoist r file).contracts = file.declarations.map fun decl =>
      (Contract.ofDeclaration (registryAt hoist r file.comments decl)
        (attached? (docsOf file.comments) decl) decl).1 := by
  rw [(outcomes_of_readModule h hoist r).1, List.map_map]
  rfl

/-- What a contract has from its declaration and its comment alone. -/
theorem map_contracts_of_readModule {α : Type} {source : List Char} {file : File}
    (h : readModule source = .ok file) (hoist : Bool) (r : Registry) (f : Contract → α)
    (g : Declaration → α) (hf : ∀ s decl, f (Contract.ofDeclaration s
      (attached? (docsOf file.comments) decl) decl).1 = g decl) :
    (ofFile hoist r file).contracts.map f = file.declarations.map g := by
  rw [contracts_of_readModule h, List.map_map]
  exact List.map_congr_left fun decl _ => hf _ decl

/-- With `hoist` and without, a text that can be read gives as many contracts, with the same
names and the same descriptions in the same order, and the same registry. -/
theorem extract_hoist {source : String} {file : File} (h : readModule source.toList = .ok file)
    (r : Registry) : ∃ x y, extract true r source = .ok x ∧ extract false r source = .ok y ∧
      x.contracts.length = y.contracts.length ∧
      x.contracts.map Contract.name = y.contracts.map Contract.name ∧
      x.contracts.map Contract.description = y.contracts.map Contract.description ∧
      x.registry = y.registry := by
  have hname : ∀ hoist, (ofFile hoist r file).contracts.map Contract.name =
      file.declarations.map Declaration.name := fun hoist =>
    map_contracts_of_readModule h hoist r _ _ fun _ _ => rfl
  have hdescription : ∀ hoist, (ofFile hoist r file).contracts.map Contract.description =
      file.declarations.map fun decl =>
        (attached? (docsOf file.comments) decl).bind Doc.description := fun hoist =>
    map_contracts_of_readModule h hoist r _ _ fun _ _ => rfl
  refine ⟨ofFile true r file, ofFile false r file, by rw [extract, h]; rfl,
    by rw [extract, h]; rfl, ?_, ?_, ?_, ?_⟩
  · rw [contracts_of_readModule h, contracts_of_readModule h, List.length_map, List.length_map]
  · rw [hname, hname]
  · rw [hdescription, hdescription]
  · rw [registry_ofFile, registry_ofFile]

/-- A text with a type that is named behind its use. -/
def typeBehindUse : String :=
  "/** @param \x7bP\x7d p */ function f(p) \x7b\x7d /** @typedef P\n@prop x */"

/-- With `hoist` the type is known to the function, without it is not : the variables differ. -/
theorem extract_hoist_typeBehindUse : ∃ file, readModule typeBehindUse.toList = .ok file ∧
    ∃ x y, extract true .empty typeBehindUse = .ok x ∧ extract false .empty typeBehindUse = .ok y ∧
      x.contracts.map Contract.name = y.contracts.map Contract.name ∧ x.registry = y.registry ∧
      x.contracts.map (fun c => c.vars.keys) = [["x"]] ∧
      y.contracts.map (fun c => c.vars.keys) = [["p"]] := by
  have h : readModule typeBehindUse.toList = .ok ⟨[⟨"f", [.ident "p"], 20, 36, none⟩],
      [⟨true, "* @param \x7bP\x7d p ", 0, 19⟩, ⟨true, "* @typedef P\n@prop x ", 37, 62⟩]⟩ := by
    cbv
  obtain ⟨x, y, hx, hy, -, hname, -, hregistry⟩ := extract_hoist h .empty
  refine ⟨_, h, x, y, hx, hy, hname, hregistry, ?_, ?_⟩
  · rw [extract, h] at hx
    obtain rfl := Except.ok.inj hx
    cbv
  · rw [extract, h] at hy
    obtain rfl := Except.ok.inj hy
    cbv

end Source

end CallContract
