import CallContract.Proofs.Doc.ParamPaths
import CallContract.Proofs.Reconciliation.WrittenOut

/-!
# Tags for the properties of a type

A parameter tag can repeat what a property of a type says, and then documents what the property
documents, under a name of its own (`Tag.Repeats.agrees`). If the tags `x.key` repeat all properties
of a type, and those of its properties, they document below the argument `x` what the type documents
there (`PropertyTags.entries_agree`).
-/

namespace CallContract

open Association (lastOf)

/-! ## Tags of properties -/

/-- A tag says of a parameter what a property says of itself. -/
structure Tag.Repeats (t : Tag) (p : PropDef) : Prop where
  type : nonEmpty t.type = p.type
  description : nonEmpty t.description = p.description
  default : t.default.bind Doc.defaultValue? = p.default
  isOptional : t.isOptional = p.isOptional

/-- Parameter tags for properties of `x`, and for the properties that these have, one for each. -/
inductive PropertyTags : (x : String) → List (String × PropDef) → List Tag → Prop
  | nil {x : String} : PropertyTags x [] []
  | cons {x key : String} {p : PropDef} {ps : List (String × PropDef)} {t : Tag}
    {inner ts : List Tag} : t.keyword = "param" → t.name = x ++ "." ++ key → t.Repeats p →
      PropertyTags (x ++ "." ++ key) p.props inner → PropertyTags x ps ts →
      PropertyTags x ((key, p) :: ps) (t :: (inner ++ ts))

theorem shape?_nonEmpty (s : String) : (nonEmpty s).bind TypeExpr.shape? = TypeExpr.shape? s := by
  unfold nonEmpty
  split
  · rename_i h
    rw [String.isEmpty_iff.mp h]
    decide
  · rfl

theorem Tag.Repeats.agrees {t : Tag} {p : PropDef} (h : t.Repeats p) (name : String)
    (path : ArgPath) : (Parameter.ofProp name path p).Agrees (Doc.parameter path t) := by
  unfold Parameter.Agrees Parameter.ofProp Doc.parameter
  rw [← h.type, ← h.description, ← h.default, ← h.isOptional, shape?_nonEmpty]
  cases TypeExpr.shape? t.type <;> rfl

theorem PropDef.entries_eq (p : PropDef) (path : ArgPath) :
    p.entries path = propEntries path p.props := by
  cases p
  rw [entries]

namespace PropertyTags

variable {x : String} {ps : List (String × PropDef)} {ts : List Tag}

theorem keyword_eq (h : PropertyTags x ps ts) : ∀ t ∈ ts, t.keyword = "param" := by
  induction h with
  | nil => exact fun _ ht => (List.not_mem_nil ht).elim
  | cons hkeyword _ _ _ _ hinner hrest =>
    refine List.forall_mem_cons.mpr ⟨hkeyword, fun t ht => ?_⟩
    exact (List.mem_append.mp ht).elim (hinner t) (hrest t)

theorem countP_isUndotted (h : PropertyTags x ps ts) : ts.countP Doc.isUndotted = 0 := by
  induction h with
  | nil => rfl
  | cons _ hname _ _ _ hinner hrest =>
    rw [List.countP_cons_of_neg, List.countP_append, hinner, hrest]
    simp [Doc.isUndotted, hname]

/-- The tags have the paths of the properties, and say the same. -/
theorem entries_agree {x₀ : String} {i : Nat} (hx₀ : '.' ∉ x₀.toList) (h : PropertyTags x ps ts) :
    ∀ {s : List Char} {parent : ArgPath}, x.toList = x₀.toList ++ s →
      parent.text.toList = (ArgPath.root i).text.toList ++ s →
      (s = [] ∨ ∃ m, s = '.' :: m) →
      List.Forall₂ Documented.EntryAgrees (propEntries parent ps)
        ((Doc.paramPaths (lastOf (i + 1)) ts).map fun e => (e.1, Doc.parameter e.1 e.2)) := by
  induction h with
  | nil =>
    intro s parent _ _ _
    rw [propEntries]
    exact .nil
  | @cons x key p ps t inner ts hkeyword hname hrepeats htags hmore hinner hrest =>
    intro s parent hx hparent hs
    have hbelow : s ++ '.' :: key.toList = [] ∨ ∃ m, s ++ '.' :: key.toList = '.' :: m := by
      rcases hs with rfl | ⟨m, rfl⟩
      · exact Or.inr ⟨key.toList, rfl⟩
      · exact Or.inr ⟨m ++ '.' :: key.toList, rfl⟩
    obtain ⟨rest, hrest'⟩ := hbelow.resolve_left (by simp)
    have hname' : t.name.toList = x₀.toList ++ '.' :: rest := by
      rw [hname, ← hrest', ← List.append_assoc, ← hx]
      simp
    have hpath : (ArgPath.root i).child (String.ofList rest) = parent.child key := by
      refine ArgPath.eq_of_toList ?_
      rw [ArgPath.toList_child, ArgPath.toList_child, hparent, String.toList_ofList, ← hrest']
      simp
    have hpaths : Doc.paramPaths (lastOf (i + 1)) (t :: (inner ++ ts)) =
        (parent.child key, t) :: (Doc.paramPaths (lastOf (i + 1)) inner ++
          Doc.paramPaths (lastOf (i + 1)) ts) := by
      rw [Doc.paramPaths_dotted hname' hx₀, Doc.paramPaths_append, htags.countP_isUndotted]
      exact congrArg (fun q => (q, t) :: _) hpath
    rw [hpaths, propEntries, PropDef.entries_eq, List.map_cons, List.map_append]
    refine .cons ⟨rfl, hrepeats.agrees key (parent.child key)⟩ (List.rel_append ?_ ?_)
    · refine hinner ?_ ?_ hbelow
      · rw [← List.append_assoc, ← hx]
        simp
      · rw [ArgPath.toList_child, hparent, List.append_assoc]
    · exact hrest hx hparent hs

end PropertyTags

/-- Properties without properties document one parameter each. -/
theorem entries_of_flat {parent : ArgPath} : ∀ {ps : List (String × PropDef)},
    (∀ e ∈ ps, e.2.props = []) →
      propEntries parent ps = ps.map fun e => (parent.child e.1, .ofProp e.1 (parent.child e.1) e.2)
  | [], _ => by rw [propEntries, List.map_nil]
  | (name, p) :: ps, h => by
    obtain ⟨hp, hps⟩ := List.forall_mem_cons.mp h
    rw [propEntries, PropDef.entries_eq, hp, propEntries, List.nil_append, entries_of_flat hps,
      List.map_cons]

end CallContract
