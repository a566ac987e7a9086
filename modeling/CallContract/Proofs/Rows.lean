import CallContract.Proofs.Doc.ParamPaths
import CallContract.Proofs.Registry.Recording
import CallContract.Proofs.Source.TopLevel
import CallContract.Proofs.Variables

/-!
# What every row of a contract has

A row of a contract is made of a name that a pattern binds, of a parameter that a comment
documents, of a property of a named type, or of two of these. `Carries T P S D R` says that what
tags, properties, bound names and documented parameters have (`T`, `P`, `S`, `D`) is handed on
until every row has `R`. Each step from a source text to its contracts keeps to it, also where
types are filled in (`Registry.All.expandFrom`) and where a variable gives way to the properties
of its type (`Variables.Rows.reconcile`). So do texts that are read in turn, one reading the
named types of another (`Extraction.rows_extractInTurn`).

No variable of a contract has the name of another (`Variables.Rows.nodup`).
-/

namespace CallContract

variable {T : Tag → Prop} {P : PropDef → Prop} {S D R : Parameter → Prop}

/-! ## Predicates on parts -/

/-- A predicate on properties holds of properties and of all properties below them. -/
inductive PropsAll (P : PropDef → Prop) : List (String × PropDef) → Prop
  | nil : PropsAll P []
  | cons {name : String} {p : PropDef} {ps : List (String × PropDef)} :
    P p → PropsAll P p.props → PropsAll P ps → PropsAll P ((name, p) :: ps)

theorem propsAll_iff : ∀ {ps : List (String × PropDef)},
    PropsAll P ps ↔ ∀ e ∈ ps, P e.2 ∧ PropsAll P e.2.props
  | [] => iff_of_true .nil fun _ he => (List.not_mem_nil he).elim
  | (name, p) :: ps => by
    rw [List.forall_mem_cons, ← propsAll_iff]
    exact ⟨fun | .cons hp hbelow hps => ⟨⟨hp, hbelow⟩, hps⟩,
      fun ⟨⟨hp, hbelow⟩, hps⟩ => .cons hp hbelow hps⟩

/-- A predicate holds of all properties of a named type. -/
def TypeDef.All (P : PropDef → Prop) (d : TypeDef) : Prop := PropsAll P d.props

/-- A predicate holds of all properties of registered types. -/
def Registry.All (P : PropDef → Prop) (r : Registry) : Prop := ∀ d ∈ r.defs, d.All P

/-- Predicates hold of the parameters that a comment documents and of the properties of the type
that it names. -/
structure Doc.All (P : PropDef → Prop) (D : Parameter → Prop) (d : Doc) : Prop where
  params : ∀ e ∈ d.params, D e.2
  namedType : ∀ t ∈ d.namedType, t.All P

/-- Variables with no name twice, whose rows satisfy a predicate. -/
structure Variables.Rows (R : Parameter → Prop) (vars : Variables) : Prop where
  nodup : vars.keys.Nodup
  row : ∀ e ∈ vars, R e.2

/-- Predicates on tags, properties, bound names, documented parameters and rows that are handed
on from the first to the last. -/
structure Carries (T : Tag → Prop) (P : PropDef → Prop) (S D R : Parameter → Prop) : Prop where
  tag : ∀ keyword source, T (Tag.ofParts keyword source)
  extend : ∀ t more, T t → T (t.extend more)
  parameter : ∀ path t, T t → D (Doc.parameter path t)
  property : ∀ t, T t → P (Doc.property t)
  wrapped : ∀ p name d, P p → P (p.wrapped name d)
  ofProp : ∀ name path p, P p → D (.ofProp name path p)
  renamed : ∀ p name, D p → D { p with name }
  stable : Variables.Stable S
  leaf : ∀ p, S p → R p
  merge : ∀ p q, S p → D q → R (p.merge q)
  documented : ∀ p, D p → R p

namespace Carries

variable (h : Carries T P S D R)
include h

/-! ## Comments -/

theorem tags_ofLines : ∀ lines : List (List Char), ∀ t ∈ (Tag.ofLines lines).2, T t
  | [] => fun _ ht => (List.not_mem_nil ht).elim
  | line :: lines => by
    have ih := tags_ofLines lines
    rw [Tag.ofLines]
    cases hline : Tag.ofLine? line with
    | none => exact ih
    | some t =>
      refine List.forall_mem_cons.mpr ⟨h.extend t _ ?_, ih⟩
      unfold Tag.ofLine? at hline
      split at hline
      · split at hline
        · obtain rfl := Option.some.inj hline
          exact h.tag _ _
        · cases hline
      · cases hline

theorem doc_ofBlock {b : CommentBlock} (hb : ∀ t ∈ b.tags, T t) (start stop : Nat) :
    (Doc.ofBlock b start stop).All P D := by
  have hparams : ∀ e ∈ Doc.parameters (b.tags.filter (·.keyword == "param")), D e.2 := by
    intro e he
    obtain ⟨⟨path, t⟩, ht, rfl⟩ := List.mem_map.mp (Table.mem_ofList he)
    exact h.parameter path t (hb t (List.mem_filter.mp (Doc.mem_of_mem_paramPaths ht)).1)
  have hprops : PropsAll P (Doc.properties b.tags) := by
    refine propsAll_iff.mpr fun e he => ?_
    obtain ⟨t, ht, rfl⟩ := List.mem_map.mp (Table.mem_ofList he)
    exact ⟨h.property t (hb t (List.mem_filter.mp ht).1), .nil⟩
  unfold Doc.ofBlock
  simp only
  split
  · split
    · exact ⟨fun _ he => (List.not_mem_nil he).elim, fun _ ht => by cases ht⟩
    · refine ⟨fun _ he => (List.not_mem_nil he).elim, fun d hd => ?_⟩
      obtain rfl := Option.some.inj hd
      exact hprops
  · exact ⟨hparams, fun _ ht => by cases ht⟩

theorem docsOf (cs : List Source.Comment) : ∀ d ∈ Extraction.docsOf cs, d.All P D := by
  intro d hd
  obtain ⟨c, _, hc⟩ := List.mem_filterMap.mp hd
  unfold Doc.ofComment? at hc
  split at hc
  · obtain rfl := Option.some.inj hc
    exact h.doc_ofBlock (h.tags_ofLines _) _ _
  · cases hc

end Carries

/-! ## Named types -/

namespace Registry

variable {r : Registry}

theorem All.empty : Registry.empty.All P := fun _ hd => (List.not_mem_nil hd).elim

theorem All.registerAll : ∀ {ds : List TypeDef} {r : Registry}, r.All P →
    (∀ d ∈ ds, d.All P) → (r.registerAll ds).All P
  | [], _, hr, _ => hr
  | d :: ds, r, hr, h => by
    obtain ⟨hd, hds⟩ := List.forall_mem_cons.mp h
    have hput : (r.register d).All P := fun e he =>
      (TypeDef.mem_put he).elim (fun hed => hed ▸ hd) (hr e)
    exact hput.registerAll hds

theorem All.registerDocs {docs : List Doc} (hr : r.All P) (h : ∀ d ∈ docs, d.All P D) :
    (r.registerDocs docs).All P := by
  refine hr.registerAll fun t ht => ?_
  obtain ⟨d, hd, htd⟩ := List.mem_filterMap.mp ht
  exact (h d hd).namedType t htd

/-- Filling in named types leaves what all properties have. -/
theorem All.expandFrom (hwrapped : ∀ p name d, P p → P (p.wrapped name d)) (hr : r.All P)
    (way : List String) (name : String) (h : name ∉ way) {d : TypeDef}
    (hd : (r.expandFrom way name h).1 = some d) : d.All P := by
  rw [Registry.expandFrom] at hd
  split at hd
  · simp at hd
  · rename_i e he
    have hlt := remaining_append_lt (mem_names_of_find? he) h
    have hprops := propsAll_iff.mp (hr e (mem_of_find? he))
    split at hd
    · obtain rfl := Option.some.inj hd
      refine propsAll_iff.mpr fun f hf => ?_
      obtain ⟨p, hp, rfl⟩ := List.mem_map.mp hf
      obtain ⟨q, hq, rfl⟩ := List.mem_map.mp hp
      split
      · exact hprops q hq
      · split
        · exact hprops q hq
        · rename_i t _ ht
          split
          · exact hprops q hq
          · rename_i hn
            exact ⟨hwrapped _ _ _ (hprops q hq).1,
              All.expandFrom hwrapped hr (way ++ [name]) t ht (by rw [hn])⟩
    · obtain rfl := Option.some.inj hd
      exact hr e (mem_of_find? he)
termination_by r.remaining way

end Registry

/-! ## Documented parameters -/

mutual

theorem forall_entries (hprop : ∀ name path p, P p → D (.ofProp name path p)) :
    ∀ {p : PropDef} {path : ArgPath}, PropsAll P p.props → ∀ e ∈ p.entries path, D e.2
  | { props, .. }, path, h => by
    intro e he
    rw [PropDef.entries] at he
    exact forall_propEntries hprop h e he

theorem forall_propEntries (hprop : ∀ name path p, P p → D (.ofProp name path p)) :
    ∀ {ps : List (String × PropDef)} {parent : ArgPath}, PropsAll P ps →
      ∀ e ∈ propEntries parent ps, D e.2
  | [], _, _ => fun _ he => by rw [propEntries] at he; cases he
  | (name, p) :: ps, parent, h => by
    obtain ⟨⟨hp, hbelow⟩, hps⟩ := List.forall_mem_cons.mp (propsAll_iff.mp h)
    intro e he
    rw [propEntries] at he
    rcases List.mem_cons.mp he with rfl | he
    · exact hprop name _ p hp
    rcases List.mem_append.mp he with he | he
    · exact forall_entries hprop hbelow e he
    · exact forall_propEntries hprop (propsAll_iff.mpr hps) e he

end

namespace Documented

variable {r : Registry} {params : Documented}

theorem mem_foldl_insertNew {e : ArgPath × Parameter} :
    ∀ {l : List (ArgPath × Parameter)} {t : Documented},
      e ∈ l.foldl (fun t e => t.insertNew e.1 e.2) t → e ∈ t ∨ e ∈ l
  | [], _, h => Or.inl h
  | f :: l, t, h => by
    have hfold : e ∈ l.foldl (fun t e => t.insertNew e.1 e.2) (t.insertNew f.1 f.2) := h
    rcases mem_foldl_insertNew hfold with h | h
    · rcases Table.mem_insertNew h with rfl | h
      · exact Or.inr List.mem_cons_self
      · exact Or.inl h
    · exact Or.inr (List.mem_cons_of_mem _ h)

theorem forall_implied (h : Carries T P S D R) (hr : r.All P) (path : ArgPath) (p : Parameter) :
    ∀ e ∈ implied r path p, D e.2 := by
  unfold implied
  split
  · exact fun _ he => (List.not_mem_nil he).elim
  · rename_i d hd
    split
    · refine forall_propEntries h.ofProp ?_
      unfold definition at hd
      split at hd
      · simp at hd
      · exact hr.expandFrom h.wrapped [] _ List.not_mem_nil hd
    · exact fun _ he => (List.not_mem_nil he).elim

theorem forall_expanded (h : Carries T P S D R) (hr : r.All P) (hparams : ∀ e ∈ params, D e.2) :
    ∀ e ∈ expanded r params, D e.2 := by
  intro e he
  rcases mem_foldl_insertNew he with he | he
  · exact hparams e he
  · obtain ⟨f, _, hf⟩ := List.mem_flatMap.mp he
    exact forall_implied h hr f.1 f.2 e hf

theorem forall_innermost (h : Carries T P S D R) (hparams : ∀ e ∈ params, D e.2)
    (path : ArgPath) : ∀ p ∈ innermost params path, D p := by
  intro p hp
  obtain ⟨q, hq, rfl⟩ := List.mem_map.mp hp
  obtain ⟨e, he, rfl⟩ := List.mem_map.mp (List.mem_filter.mp (List.mem_filter.mp hq).1).1
  exact h.renamed _ _ (hparams e he)

end Documented

/-! ## Variables and their documentation -/

namespace Variables

variable {r : Registry} {params : Documented} {leaf : Parameter}

theorem rows_ofPatterns (hS : Stable S) {patterns : List Pattern}
    (h : ∀ p ∈ Pattern.allLeaves 0 patterns, S p) : (ofPatterns patterns).Rows S :=
  ⟨nodup_ofPatterns patterns, forall_ofPatterns hS h⟩

theorem forall_resolve (h : Carries T P S D R) (hparams : ∀ e ∈ params, D e.2) (hleaf : S leaf) :
    (∀ p ∈ (resolve r params leaf).row?, R p) ∧ ∀ p ∈ (resolve r params leaf).rows, R p := by
  unfold resolve
  split
  · refine ⟨fun p hp => ?_, fun _ hp => (List.not_mem_nil hp).elim⟩
    obtain rfl := Option.some.inj hp
    exact h.leaf leaf hleaf
  · rename_i entry hentry
    have hmerged := h.merge leaf entry hleaf (hparams _ (Table.mem_of_find? hentry))
    have hrows : ∀ p ∈ if hasObjectType r (leaf.merge entry) && !(leaf.merge entry).isRest then
        params.innermost (leaf.merge entry).path else [], R p := by
      split
      · exact fun p hp => h.documented p (Documented.forall_innermost h hparams _ p hp)
      · exact fun _ hp => (List.not_mem_nil hp).elim
    simp only
    generalize (if hasObjectType r (leaf.merge entry) && !(leaf.merge entry).isRest then
      params.innermost (leaf.merge entry).path else []) = rows at hrows ⊢
    split
    · refine ⟨fun p hp => ?_, fun _ hp => (List.not_mem_nil hp).elim⟩
      obtain rfl := Option.some.inj hp
      exact hmerged
    · exact ⟨fun _ hp => (Option.not_mem_none _ hp).elim, hrows⟩

theorem Rows.addRows (function : String) : ∀ (rows : List Parameter) {vars : Variables},
    vars.Rows R → (∀ p ∈ rows, R p) → (addRows function vars rows).1.Rows R
  | [], _, hv, _ => hv
  | p :: rows, vars, hv, h => by
    obtain ⟨hp, hrows⟩ := List.forall_mem_cons.mp h
    rw [Variables.addRows]
    split
    · exact Rows.addRows function rows hv hrows
    · refine Rows.addRows function rows ⟨Table.nodup_insert _ _ hv.nodup, fun e he => ?_⟩ hrows
      rcases Table.mem_insert he with rfl | he
      · exact hp
      · exact hv.row e he

theorem Rows.reconcile (h : Carries T P S D R) {vars : Variables} (hv : vars.Rows S)
    (function : String) {doc : Option Doc} (hdoc : ∀ d ∈ doc, d.All P D) (hr : r.All P) :
    (vars.reconcile function doc r).1.Rows R := by
  unfold Variables.reconcile
  split
  · exact ⟨hv.nodup, fun e he => h.leaf _ (hv.row e he)⟩
  · rename_i d
    have hparams := Documented.forall_expanded h hr (hdoc d rfl).params
    have hresolved := fun e he => forall_resolve (r := r) h hparams (hv.row e he)
    refine Rows.addRows function _ ⟨?_, fun e he => ?_⟩ fun p hp => ?_
    · exact Table.nodup_filterMap (fun e => (resolve r _ e.2).row?) hv.nodup
    · obtain ⟨f, hf, hfrow⟩ := List.mem_filterMap.mp he
      obtain ⟨row, hrow, rfl⟩ := Option.map_eq_some_iff.mp hfrow
      exact (hresolved f hf).1 row hrow
    · obtain ⟨f, hf, hrow⟩ := List.mem_flatMap.mp hp
      exact (hresolved f hf).2 p hrow

end Variables

/-! ## Contracts of source texts -/

namespace Extraction

theorem rows_fromDeclarations (h : Carries T P S D R) : ∀ {decls : List Declaration}
    {docs : List Doc} {pending : List Source.Comment} {r : Registry} {cursor : Option Nat},
    (∀ d ∈ decls, ∀ leaf ∈ Pattern.allLeaves 0 d.params, S leaf) → (∀ d ∈ docs, d.All P D) →
      r.All P → ∀ c ∈ (fromDeclarations docs pending r cursor decls).contracts, c.vars.Rows R
  | [], _, _, _, _, _, _, _ => fun _ hc => (List.not_mem_nil hc).elim
  | decl :: decls, docs, pending, r, cursor, hdecls, hdocs, hr => by
    obtain ⟨hdecl, hrest⟩ := List.forall_mem_cons.mp hdecls
    have hnear : ∀ d ∈ docs ++ docsOf (pending.takeWhile fun c => c.start < decl.stop),
        d.All P D := by
      intro d hd
      rcases List.mem_append.mp hd with hd | hd
      · exact hdocs d hd
      · exact h.docsOf _ d hd
    have hknown := hr.registerDocs (h.docsOf (pending.takeWhile fun c => c.start < decl.stop))
    intro c hc
    rw [fromDeclarations] at hc
    rcases List.mem_cons.mp hc with rfl | hc
    · refine .reconcile h (Variables.rows_ofPatterns h.stable hdecl) _ (fun d hd => ?_) hknown
      obtain ⟨i, _, hi⟩ := Option.bind_eq_some_iff.mp hd
      exact hnear d (List.mem_of_getElem? hi)
    · exact rows_fromDeclarations h hrest hnear hknown c hc

/-- The rows of the contracts of a text have what is handed on from its patterns, its comments and
the registry. -/
theorem rows_ofFile (h : Carries T P S D R) {hoist : Bool} {r : Registry} {file : Source.File}
    (hdecls : ∀ d ∈ file.declarations, ∀ leaf ∈ Pattern.allLeaves 0 d.params, S leaf)
    (hr : r.All P) : ∀ c ∈ (ofFile hoist r file).contracts, c.vars.Rows R := by
  unfold ofFile
  split
  · exact rows_fromDeclarations h hdecls (h.docsOf _) (hr.registerDocs (h.docsOf _))
  · exact rows_fromDeclarations h hdecls (fun _ hd => (List.not_mem_nil hd).elim) hr

/-- What is handed on whatever the patterns are holds of the rows of texts that are read in
turn. -/
theorem rows_extractInTurn (h : Carries T P S D R) {hoist : Bool}
    (hS : ∀ patterns, ∀ leaf ∈ Pattern.allLeaves 0 patterns, S leaf) :
    ∀ {sources : List String} {r : Registry} {x : Extraction}, r.All P →
      .ok x ∈ (extractInTurn hoist r sources).1 → ∀ c ∈ x.contracts, c.vars.Rows R
  | [], _, _, _, hx => (List.not_mem_nil hx).elim
  | source :: sources, r, x, hr, hx => by
    rw [extractInTurn] at hx
    cases hy : extract hoist r source with
    | error e =>
      rw [hy] at hx
      exact rows_extractInTurn h hS hr ((List.mem_cons.mp hx).resolve_left nofun)
    | ok y =>
      rw [hy] at hx
      obtain ⟨file, -, rfl⟩ := Source.eq_ok_of_map_eq hy
      rcases List.mem_cons.mp hx with hxy | hx
      · cases hxy
        exact rows_ofFile h (fun d _ => hS d.params) hr
      · refine rows_extractInTurn h hS ?_ hx
        rw [registry_ofFile]
        exact hr.registerDocs (h.docsOf _)

end Extraction

end CallContract
