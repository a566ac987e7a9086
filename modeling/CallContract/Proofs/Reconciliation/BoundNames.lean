import CallContract.Extraction
import CallContract.Proofs.Doc.TagGroups
import CallContract.Proofs.Path.Bindings
import CallContract.Proofs.Reconciliation.WrittenOut
import Mathlib

/-!
# Bound names beside the tags of a comment

If no documented parameter is of an object type, each variable stays, with its gaps filled from
what is documented at its path (`Variables.reconcile_of_plain`). So the variables of a function with
plain patterns, beside a comment that documents it argument by argument, are the names that it
binds, each with what the tag says that has the keys of the name in the group at its position
(`Contract.vars_ofDeclaration`).
-/

namespace CallContract

open Documented (expanded implied_of_not_hasObjectType)
open Variables (hasObjectType resolve_of_plain)

/-! ## Documented parameters of no object type -/

theorem Documented.expanded_eq_self {r : Registry} {params : Documented}
    (h : ∀ e ∈ params, hasObjectType r e.2 = false) : expanded r params = params := by
  rw [expanded, List.flatMap_eq_nil_iff.mpr fun e he => implied_of_not_hasObjectType (h e he)]
  rfl

/-- A variable beside what is documented at its path, if anything is. -/
def Parameter.besides (leaf : Parameter) (documented : Option Parameter) : Parameter :=
  (documented.map leaf.merge).getD leaf

theorem Variables.reconcile_of_plain (function : String) {r : Registry} {vars : Variables}
    {doc : Doc} (hvars : ∀ e ∈ vars, e.2.type = none)
    (hdoc : ∀ e ∈ doc.params, hasObjectType r e.2 = false) :
    (vars.reconcile function (some doc) r).1 =
      vars.map fun e => (e.1, e.2.besides (doc.params.find? e.2.path)) := by
  have hresolve : ∀ e ∈ vars, resolve r doc.params e.2 =
      .kept (e.2.besides (doc.params.find? e.2.path)) := by
    intro e he
    cases hfind : doc.params.find? e.2.path with
    | none =>
      rw [resolve, hfind]
      rfl
    | some entry =>
      exact resolve_of_plain hfind (hvars e he) (hdoc _ (Table.mem_of_find? hfind))
  have hkept : (vars.filterMap fun e =>
      (resolve r doc.params e.2).row?.map fun row => (e.1, row)) =
        vars.map fun e => (e.1, e.2.besides (doc.params.find? e.2.path)) := by
    rw [← List.filterMap_eq_map]
    exact List.filterMap_congr fun e he => by rw [hresolve e he]; rfl
  have hrows : (vars.flatMap fun e => (resolve r doc.params e.2).rows) = [] :=
    List.flatMap_eq_nil_iff.mpr fun e he => by rw [hresolve e he]; rfl
  simp only [reconcile, Documented.expanded_eq_self hdoc, hkept, hrows, addRows]

/-! ## Bound names -/

/-- The row of a bound name that a tag documents, or none : the type, the description and the
structure are those of the tag, the default and the word about being optional only if the function
has no default. -/
def Binding.row (b : Binding) : Option Tag → Parameter
  | none => b.leaf
  | some t =>
    { name := b.name
      path := b.path
      default := b.default.or (t.default.bind Doc.defaultValue?)
      description := nonEmpty t.description
      type := nonEmpty t.type
      isOptional := if b.default.isSome then some true else some t.isOptional
      shape := (TypeExpr.shape? t.type).map Prod.fst
      element := (TypeExpr.shape? t.type).map Prod.snd }

theorem Binding.besides_parameter (b : Binding) (t : Option Tag) :
    b.leaf.besides (t.map (Doc.parameter b.path)) = b.row t := by
  cases t with
  | none => rfl
  | some t =>
    rw [Option.map_some, Parameter.besides, Option.map_some, Option.getD_some, row,
      Parameter.merge, leaf, Doc.parameter]
    cases b.default <;> cases TypeExpr.shape? t.type <;> rfl

namespace Contract

variable {r : Registry} {c : Source.Comment} {doc : Doc} {decl : Declaration}
  {groups : List TagGroup}

/-- The variables of a function beside a comment that documents it argument by argument. -/
theorem vars_ofDeclaration (hplain : ∀ p ∈ decl.params, p.Plain)
    (hnames : ((Pattern.allBindings 0 decl.params).map Binding.name).Nodup)
    (haddresses : ((Pattern.allBindings 0 decl.params).map Binding.address).Nodup)
    (hdoc : Doc.ofComment? c = some doc)
    (htags : Doc.paramTags doc.tags = groups.flatMap TagGroup.tags)
    (htypes : ∀ t ∈ Doc.paramTags doc.tags, ∀ type ∈ nonEmpty t.type, r.find? type = none) :
    (ofDeclaration r (some doc) decl).1.vars = (Pattern.allBindings 0 decl.params).map fun b =>
      (b.name, b.row (groups[b.position]?.bind (·.tag? b.keys))) := by
  have hparams : ∀ e ∈ doc.params, hasObjectType r e.2 = false := by
    intro e he
    rw [Doc.params_ofComment? hdoc] at he
    obtain ⟨f, hf, rfl⟩ := List.mem_map.mp (Table.mem_ofList he)
    refine Variables.hasObjectType_eq_false fun type htype => ?_
    rw [Doc.type_parameter] at htype
    rw [Registry.isObjectType, htypes f.2 (Doc.mem_of_mem_paramPaths hf) type htype]
    rfl
  have hvars : ∀ e ∈ Variables.ofPatterns decl.params, e.2.type = none := by
    rw [Variables.ofPatterns_eq hplain hnames haddresses]
    intro e he
    obtain ⟨b, _, rfl⟩ := List.mem_map.mp he
    rfl
  change ((Variables.ofPatterns decl.params).reconcile decl.name (some doc) r).1 = _
  rw [Variables.reconcile_of_plain decl.name hvars hparams,
    Variables.ofPatterns_eq hplain hnames haddresses, List.map_map]
  refine List.map_congr_left fun b hb => ?_
  have hfind := TagGroup.find?_params hdoc htags
    (Pattern.keys_of_mem_allBindings hplain b hb) b.position
  change (b.name, b.leaf.besides (doc.params.find? (.locate b.position b.keys))) = _
  rw [hfind]
  exact congrArg (Prod.mk b.name) (b.besides_parameter _)

/-- A function that takes an object in its first argument apart, and has a second argument. -/
def nestedDecl : Declaration :=
  ⟨"f", [.object [.property (.ident "a") (.object [.property (.ident "b") (.ident "b"),
      .property (.ident "c") (.withDefault (.ident "e") (.literal (.bool true))),
      .property (.ident "g") (.ident "g")])], .ident "d"], 60, 90, none⟩

/-- A comment that documents two of its names, one of them with a default, and the second
argument. -/
def nestedComment : Source.Comment :=
  ⟨true, "*\n@param x\n@param \x7bstring[]\x7d x.a.b B\n" ++
    "@param [y.a.c=false] C\n@param \x7bnumber\x7d z", 0, 59⟩

/-- Its tags. -/
def nestedGroups : List TagGroup :=
  [{ top := ⟨"param", "x", "", "", none, false, "x"⟩
     below := [⟨"param", "x.a.b", "string[]", "B", none, false, "\x7bstring[]\x7d x.a.b B"⟩,
       ⟨"param", "y.a.c", "", "C", some "false", true, "[y.a.c=false] C"⟩]
     top_undotted := by decide
     below_dotted := by decide
     keys_distinct := by decide +kernel },
   { top := ⟨"param", "z", "number", "", none, false, "\x7bnumber\x7d z"⟩
     below := []
     top_undotted := by decide
     below_dotted := fun _ h => (List.not_mem_nil h).elim
     keys_distinct := List.nodup_nil }]

/-- The variables of the function with their types and descriptions. -/
theorem vars_ofDeclaration_nested : (∀ p ∈ nestedDecl.params, p.Plain) ∧
    ((Pattern.allBindings 0 nestedDecl.params).map Binding.name).Nodup ∧
    ((Pattern.allBindings 0 nestedDecl.params).map Binding.address).Nodup ∧
    ∃ doc, Doc.ofComment? nestedComment = some doc ∧
      Doc.paramTags doc.tags = nestedGroups.flatMap TagGroup.tags ∧
      (∀ t ∈ Doc.paramTags doc.tags, ∀ type ∈ nonEmpty t.type,
        Registry.empty.find? type = none) ∧
      (ofDeclaration .empty (some doc) nestedDecl).1.vars.map
          (fun e => (e.1, e.2.type, e.2.description)) =
        [("b", some "string[]", some "B"), ("e", none, some "C"), ("g", none, none),
          ("d", some "number", none)] := by
  have hplain : ∀ p ∈ nestedDecl.params, p.Plain := by
    simp [nestedDecl, Pattern.Plain, Pattern.PlainProperties]
  have hbindings : Pattern.allBindings 0 nestedDecl.params =
      [⟨"b", 0, ["a", "b"], none⟩, ⟨"e", 0, ["a", "c"], some (.bool true)⟩,
        ⟨"g", 0, ["a", "g"], none⟩, ⟨"d", 1, [], none⟩] := by cbv
  have hnames : ((Pattern.allBindings 0 nestedDecl.params).map Binding.name).Nodup := by
    rw [hbindings]
    decide
  have haddresses : ((Pattern.allBindings 0 nestedDecl.params).map Binding.address).Nodup := by
    rw [hbindings]
    decide
  have htags : (CommentBlock.ofText nestedComment.text.toList).tags =
      nestedGroups.flatMap TagGroup.tags := by cbv
  have hdoc : Doc.ofComment? nestedComment =
      some (Doc.ofBlock (.ofText nestedComment.text.toList) 0 59) := rfl
  have hgroups : Doc.paramTags (Doc.ofBlock (.ofText nestedComment.text.toList) 0 59).tags =
      nestedGroups.flatMap TagGroup.tags := by
    rw [Doc.tags_ofBlock, htags]
    rfl
  have hb : nestedGroups[0]?.bind (·.tag? ["a", "b"]) = some
      ⟨"param", "x.a.b", "string[]", "B", none, false, "\x7bstring[]\x7d x.a.b B"⟩ := by cbv
  have he : nestedGroups[0]?.bind (·.tag? ["a", "c"]) = some
      ⟨"param", "y.a.c", "", "C", some "false", true, "[y.a.c=false] C"⟩ := by cbv
  have hg : nestedGroups[0]?.bind (·.tag? ["a", "g"]) = none := by cbv
  have hd : nestedGroups[1]?.bind (·.tag? []) = some
      ⟨"param", "z", "number", "", none, false, "\x7bnumber\x7d z"⟩ := by cbv
  refine ⟨hplain, hnames, haddresses, _, hdoc, hgroups, fun _ _ _ _ => rfl, ?_⟩
  rw [vars_ofDeclaration hplain hnames haddresses hdoc hgroups fun _ _ _ _ => rfl, hbindings]
  simp only [List.map_cons, List.map_nil, hb, he, hg, hd, Binding.row]
  rfl

end Contract

end CallContract
