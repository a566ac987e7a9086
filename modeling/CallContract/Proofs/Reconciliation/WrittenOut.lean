import CallContract.Proofs.Reconciliation.Account
import CallContract.Proofs.Path.Position
import CallContract.Proofs.Registry.Filling
import CallContract.Proofs.Table.Restriction

/-!
# Properties written out

-/

namespace CallContract

/-- Two parameters say the same, whatever they are called. -/
def Parameter.Agrees (p q : Parameter) : Prop := { p with name := q.name } = q

theorem Parameter.Agrees.refl (p : Parameter) : p.Agrees p := rfl

theorem Parameter.Agrees.merge_eq {p q : Parameter} (h : p.Agrees q) (leaf : Parameter) :
    leaf.merge p = leaf.merge q := by
  rw [← h]
  rfl

theorem Parameter.Agrees.default_eq {p q : Parameter} (h : p.Agrees q) :
    p.default = q.default := by
  rw [← h]

theorem Parameter.Agrees.hasObjectType_eq {p q : Parameter} {r : Registry} (h : p.Agrees q) :
    Variables.hasObjectType r p = Variables.hasObjectType r q := by
  rw [← h]
  rfl

/-- A parameter whose type is no registered object type. -/
theorem Variables.hasObjectType_eq_false {r : Registry} {p : Parameter}
    (h : ∀ t, p.type = some t → r.isObjectType t = false) :
    hasObjectType r p = false := by
  unfold hasObjectType
  cases ht : p.type with
  | none => rfl
  | some t =>
    have := h t ht
    cases hf : r.find? t with
    | none => rw [Option.bind_some, hf]; rfl
    | some d => simpa [Registry.isObjectType, hf] using this

/-- A variable that is documented as of no object type stays. -/
theorem Variables.resolve_of_plain {r : Registry} {params : Documented} {leaf entry : Parameter}
    (hfind : params.find? leaf.path = some entry) (htype : leaf.type = none)
    (h : hasObjectType r entry = false) : resolve r params leaf = .kept (leaf.merge entry) := by
  refine resolve_of_documented hfind fun hway => ?_
  obtain ⟨t, d, ht, hd, ho⟩ := hway.object
  rw [htype, Option.none_or] at ht
  simp [hasObjectType, ht, hd, ho] at h

/-- What becomes of a variable depends on what is documented at its path and below it. -/
theorem Variables.resolve_congr {r : Registry} {params params' : Documented} {leaf : Parameter}
    (hfind : params.find? leaf.path = params'.find? leaf.path)
    (hinner : params.innermost leaf.path = params'.innermost leaf.path) :
    resolve r params leaf = resolve r params' leaf := by
  rw [resolve, resolve, hfind]
  cases params'.find? leaf.path with
  | none => rfl
  | some entry =>
    have hpath : (leaf.merge entry).path = leaf.path := rfl
    simp only [hpath, hinner]

/-! ## Entries of properties -/

mutual

theorem isAbove_of_mem_entries : ∀ {p : PropDef} {path : ArgPath}, ∀ e ∈ p.entries path,
    path.isAbove e.1 = true
  | { props, .. }, path => by
    intro e he
    rw [PropDef.entries] at he
    exact isAbove_of_mem_propEntries e he

/-- What properties document is below the parameter that has them. -/
theorem isAbove_of_mem_propEntries : ∀ {ps : List (String × PropDef)} {parent : ArgPath},
    ∀ e ∈ propEntries parent ps, parent.isAbove e.1 = true
  | [], _ => fun _ he => by rw [propEntries] at he; cases he
  | (name, p) :: ps, parent => by
    intro e he
    rw [propEntries] at he
    rcases List.mem_cons.mp he with rfl | he
    · exact parent.isAbove_child name
    rcases List.mem_append.mp he with he | he
    · exact ArgPath.isAbove_trans (parent.isAbove_child name) (isAbove_of_mem_entries e he)
    · exact isAbove_of_mem_propEntries e he

end

theorem mem_propEntries {parent : ArgPath} :
    ∀ {ps : List (String × PropDef)} {e : String × PropDef}, e ∈ ps →
      (parent.child e.1, .ofProp e.1 (parent.child e.1) e.2) ∈ propEntries parent ps
  | (name, p) :: ps, e, h => by
    rw [propEntries]
    rcases List.mem_cons.mp h with rfl | h
    · exact List.mem_cons_self
    · exact List.mem_cons_of_mem _ (List.mem_append_right _ (mem_propEntries h))

theorem type_ofProp (name : String) (path : ArgPath) (p : PropDef) :
    (Parameter.ofProp name path p).type = p.type := by
  unfold Parameter.ofProp
  cases p.type.bind TypeExpr.shape? <;> rfl

namespace Documented

open Variables (hasObjectType resolve mismatch? resolve_of_plain resolve_congr)

variable {r : Registry} {p : Parameter} {path : ArgPath}

/-- The type of a parameter that is of no object type has no properties, and no circles. -/
theorem definition_of_not_hasObjectType (h : hasObjectType r p = false) :
    (definition r p).2 = [] ∧ ∀ d, (definition r p).1 = some d → d.isObject = false := by
  unfold definition
  cases ht : p.type with
  | none => simp
  | some t =>
    cases hf : r.find? t with
    | none => simp [Registry.expand_of_find?_eq_none hf]
    | some d =>
      have ho : d.isObject = false := by simpa [hasObjectType, ht, hf] using h
      simp [Registry.expand_of_not_isObject hf ho, ho]

theorem circles_of_not_hasObjectType (h : hasObjectType r p = false) : (definition r p).2 = [] :=
  (definition_of_not_hasObjectType h).1

theorem implied_of_not_hasObjectType (h : hasObjectType r p = false) : implied r path p = [] := by
  unfold implied
  split
  · rfl
  · rename_i d hd
    rw [(definition_of_not_hasObjectType h).2 d hd]
    rfl

/-- What a parameter stands for is below it. -/
theorem isAbove_of_mem_implied : ∀ e ∈ implied r path p, path.isAbove e.1 = true := by
  unfold implied
  split
  · exact fun _ he => (List.not_mem_nil he).elim
  · split
    · exact isAbove_of_mem_propEntries
    · exact fun _ he => (List.not_mem_nil he).elim

/-- What a table holds below a path is there if other keys are left out. -/
theorem under_restrict {params : Documented} {keep : ArgPath → Bool} (h : Keyed params)
    (hkeep : ∀ k ∈ params.keys, path.isAbove k = true → keep k = true) :
    under (Table.restrict keep params) path = params.under path := by
  unfold under Table.values Table.restrict
  rw [List.filter_map, List.filter_map, List.filter_filter]
  congr 1
  refine List.filter_congr fun e he => ?_
  have hpath := h.path_eq e he
  simp only [Function.comp_apply, hpath]
  cases habove : path.isAbove e.1 with
  | false => rfl
  | true => exact hkeep e.1 (List.mem_map.mpr ⟨e, he, rfl⟩) habove

/-! ## Two ways to document a parameter -/

/-- Two entries of one path say the same. -/
def EntryAgrees (e w : ArgPath × Parameter) : Prop := e.1 = w.1 ∧ e.2.Agrees w.2

theorem keys_eq_of_agree {es ws : List (ArgPath × Parameter)} (h : List.Forall₂ EntryAgrees es ws) :
    Table.keys es = Table.keys ws := by
  induction h with
  | nil => rfl
  | cons hw _ ih =>
    simp only [Table.keys, List.map_cons] at ih ⊢
    rw [hw.1, ih]

/-- What agrees with an entry that is written is one of the entries of the properties. -/
theorem exists_of_agree {es ws : List (ArgPath × Parameter)} {w : ArgPath × Parameter}
    (h : List.Forall₂ EntryAgrees es ws) (hw : w ∈ ws) : ∃ e ∈ es, EntryAgrees e w := by
  induction h with
  | nil => cases hw
  | cons he _ ih =>
    rcases List.mem_cons.mp hw with rfl | hw
    · exact ⟨_, List.mem_cons_self, he⟩
    · obtain ⟨e, hmem, he⟩ := ih hw
      exact ⟨e, List.mem_cons_of_mem _ hmem, he⟩

/-- An entry of an object type among others, and in its place an entry of no object type with an
entry for each property of the type right behind it. Both are entries of `own`. -/
structure WrittenOut (r : Registry) (own : ArgPath) (props : List (String × PropDef))
    (typed plain : Parameter) (front written behind : List (ArgPath × Parameter)) : Prop where
  typed_definition : ∃ d, definition r typed = (some d, []) ∧ d.isObject = true ∧ d.props = props
  plain_type : hasObjectType r plain = false
  /-- What is written agrees with what the properties document, no path twice. -/
  written_props : List.Forall₂ EntryAgrees (propEntries own props) written
  nodup : (Table.keys written).Nodup
  written_type : ∀ e ∈ written, hasObjectType r e.2 = false
  own_not_mem : ∀ e ∈ front ++ behind, e.1 ≠ own
  /-- What is in front documents none of the properties. -/
  front_not_mem : ∀ e ∈ front, e.1 ∉ Table.keys written
  /-- No other parameter at or above a property is of an object type. -/
  above_type : ∀ e ∈ front ++ behind, ∀ k ∈ Table.keys written, e.1.LeadsTo k →
    hasObjectType r e.2 = false
  path_eq : ∀ e ∈ front ++ (own, typed) :: (own, plain) :: (written ++ behind), e.2.path = e.1

/-- The entries with the typed one. -/
def byType (own : ArgPath) (typed : Parameter) (front behind : List (ArgPath × Parameter)) :
    Documented := Table.ofList (front ++ (own, typed) :: behind)

/-- The entries with the properties written out. -/
def byProperty (own : ArgPath) (plain : Parameter)
    (front written behind : List (ArgPath × Parameter)) : Documented :=
  Table.ofList (front ++ (own, plain) :: (written ++ behind))

/-- Whether a path is neither that of the parameter nor that of a property. -/
def isOther (own : ArgPath) (written : List (ArgPath × Parameter)) (k : ArgPath) : Bool :=
  decide (k ≠ own ∧ k ∉ Table.keys written)

namespace WrittenOut

variable {own : ArgPath} {props : List (String × PropDef)} {typed plain : Parameter}
  {front written behind : List (ArgPath × Parameter)} {e : ArgPath × Parameter}

/-- What each entry by type is. -/
theorem mem_byType (he : e ∈ byType own typed front behind) :
    e = (own, typed) ∨ e ∈ front ++ behind := by
  have := Table.mem_ofList he
  simp only [List.mem_append, List.mem_cons] at this ⊢
  tauto

/-- Both ways the other paths are documented alike. -/
theorem restrict_eq : Table.restrict (isOther own written) (byType own typed front behind) =
    Table.restrict (isOther own written) (byProperty own plain front written behind) := by
  have hown : isOther own written own = false := by simp [isOther]
  have hwritten : Table.restrict (isOther own written) written = [] :=
    Table.restrict_eq_nil fun e he => by
      have : e.1 ∈ Table.keys written := List.mem_map.mpr ⟨e, he, rfl⟩
      simp [isOther, this]
  rw [byType, byProperty, Table.restrict_ofList, Table.restrict_ofList, Table.restrict_append,
    Table.restrict_append, Table.restrict_cons_of_drop hown, Table.restrict_cons_of_drop hown,
    Table.restrict_append, hwritten, List.nil_append]

variable (h : WrittenOut r own props typed plain front written behind)

include h

theorem implied_typed : implied r own typed = propEntries own props := by
  obtain ⟨d, hd, ho, rfl⟩ := h.typed_definition
  rw [implied, hd]
  exact if_pos ho

theorem circles_typed : (definition r typed).2 = [] := by
  obtain ⟨d, hd, _⟩ := h.typed_definition
  rw [hd]

theorem mem_byProperty (he : e ∈ byProperty own plain front written behind) :
    hasObjectType r e.2 = false ∨ e ∈ front ++ behind := by
  have hmem := Table.mem_ofList he
  simp only [List.mem_append, List.mem_cons] at hmem ⊢
  rcases hmem with hmem | rfl | hmem | hmem
  · exact Or.inr (Or.inl hmem)
  · exact Or.inl h.plain_type
  · exact Or.inl (h.written_type e hmem)
  · exact Or.inr (Or.inr hmem)

/-- Others at the path of a property are of no object type. -/
theorem type_of_not_isOther (he : e ∈ front ++ behind) (hother : isOther own written e.1 = false) :
    hasObjectType r e.2 = false := by
  have hkey : e.1 ∈ Table.keys written := by
    by_contra hkey
    simp [isOther, hkey, h.own_not_mem e he] at hother
  exact h.above_type e he e.1 hkey (Or.inl rfl)

theorem restrict_propEntries :
    Table.restrict (isOther own written) (propEntries own props) = [] :=
  Table.restrict_eq_nil fun e he => by
    have hkey : e.1 ∈ Table.keys written := by
      rw [← keys_eq_of_agree h.written_props]
      exact List.mem_map.mpr ⟨e, he, rfl⟩
    simp [isOther, hkey]

theorem find?_byType_own : (byType own typed front behind).find? own = some typed := by
  have hbehind : own ∉ Table.keys behind := fun hmem => by
    obtain ⟨e, he, heq⟩ := List.mem_map.mp hmem
    exact h.own_not_mem e (List.mem_append_right front he) heq
  rw [byType, Table.find?_ofList_append_cons, Table.find?_reverse_eq_none hbehind, if_pos rfl,
    Option.none_or]

/-! ### Other paths -/

theorem circles_eq : circles r (byType own typed front behind) =
    circles r (byProperty own plain front written behind) := by
  have htype : ∀ e ∈ byType own typed front behind, isOther own written e.1 = false →
      (definition r e.2).2 = [] := by
    intro e he hother
    rcases mem_byType he with rfl | he
    · exact h.circles_typed
    · exact circles_of_not_hasObjectType (h.type_of_not_isOther he hother)
  have hproperty : ∀ e ∈ byProperty own plain front written behind,
      isOther own written e.1 = false → (definition r e.2).2 = [] := by
    intro e he hother
    rcases h.mem_byProperty he with htype | he
    · exact circles_of_not_hasObjectType htype
    · exact circles_of_not_hasObjectType (h.type_of_not_isOther he hother)
  rw [circles, circles, ← Table.flatMap_restrict htype, restrict_eq,
    Table.flatMap_restrict hproperty]

/-- Both ways the other paths are documented alike, those that others stand for too. -/
theorem restrict_expanded_eq :
    Table.restrict (isOther own written) (expanded r (byType own typed front behind)) =
      Table.restrict (isOther own written)
        (expanded r (byProperty own plain front written behind)) := by
  rw [expanded, expanded, Table.restrict_foldl_insertNew, Table.restrict_foldl_insertNew,
    Table.restrict_flatMap, Table.restrict_flatMap, restrict_eq]
  · intro e he hother
    rcases h.mem_byProperty he with htype | he
    · rw [implied_of_not_hasObjectType htype, Table.restrict_nil]
    · rw [implied_of_not_hasObjectType (h.type_of_not_isOther he hother), Table.restrict_nil]
  · intro e he hother
    rcases mem_byType he with rfl | he
    · rw [h.implied_typed, h.restrict_propEntries]
    · rw [implied_of_not_hasObjectType (h.type_of_not_isOther he hother), Table.restrict_nil]

theorem find?_expanded_eq {k : ArgPath} (hk : isOther own written k = true) :
    (expanded r (byType own typed front behind)).find? k =
      (expanded r (byProperty own plain front written behind)).find? k := by
  rw [← Table.find?_restrict hk, h.restrict_expanded_eq, Table.find?_restrict hk]

/-! ### Paths of properties -/

theorem own_ne_of_mem {k : ArgPath} (hk : k ∈ Table.keys written) : own ≠ k := by
  rintro rfl
  obtain ⟨e, he, heq⟩ := List.mem_map.mp (keys_eq_of_agree h.written_props ▸ hk)
  have := ArgPath.length_lt_of_isAbove (isAbove_of_mem_propEntries e he)
  rw [heq] at this
  exact Nat.lt_irrefl _ this

/-- Only the typed entry stands for a property. -/
theorem eq_typed_of_mem_implied {k : ArgPath} (hk : k ∈ Table.keys written)
    (he : e ∈ byType own typed front behind) (hmem : k ∈ Table.keys (implied r e.1 e.2)) :
    e = (own, typed) := by
  refine (mem_byType he).resolve_right fun he => ?_
  obtain ⟨f, hf, rfl⟩ := List.mem_map.mp hmem
  rw [implied_of_not_hasObjectType
    (h.above_type e he f.1 hk (Or.inr (isAbove_of_mem_implied f hf)))] at hf
  cases hf

/-- A property is documented alike both ways, and never as one of an object type. -/
theorem find?_expanded_property {k : ArgPath} (hk : k ∈ Table.keys written) :
    ∃ a b, (expanded r (byType own typed front behind)).find? k = some a ∧
      (expanded r (byProperty own plain front written behind)).find? k = some b ∧
      a.Agrees b ∧ hasObjectType r a = false := by
  have hown := h.own_ne_of_mem hk
  have hfront : k ∉ Table.keys front := fun hmem => by
    obtain ⟨e, he, rfl⟩ := List.mem_map.mp hmem
    exact h.front_not_mem e he hk
  have htyped : (byType own typed front behind).find? k = Table.find? behind.reverse k := by
    rw [byType, Table.find?_ofList_append_cons, if_neg hown, Table.find?_reverse_eq_none hfront,
      Option.or_none]
  have hplain : (byProperty own plain front written behind).find? k =
      (Table.find? behind.reverse k).or (Table.find? written.reverse k) := by
    rw [byProperty, Table.find?_ofList_append_cons, if_neg hown, Table.find?_reverse_eq_none hfront,
      Option.or_none, List.reverse_append, Table.find?_append]
  rw [expanded, expanded, Table.find?_foldl_insertNew, Table.find?_foldl_insertNew, htyped, hplain]
  cases hbehind : Table.find? behind.reverse k with
  | some a =>
    -- an entry behind takes the place of the property both ways
    have hmem : (k, a) ∈ front ++ behind :=
      List.mem_append_right front (List.mem_reverse.mp (Table.mem_of_find? hbehind))
    exact ⟨a, a, rfl, rfl, .refl a, h.above_type (k, a) hmem k hk (Or.inl rfl)⟩
  | none =>
    obtain ⟨⟨k, b⟩, hb, rfl⟩ := List.mem_map.mp hk
    obtain ⟨⟨_, a⟩, ha, rfl, hagrees⟩ := exists_of_agree h.written_props hb
    have hnodup : (Table.keys (propEntries own props)).Nodup := by
      rw [keys_eq_of_agree h.written_props]
      exact h.nodup
    have hreverse : (Table.keys written.reverse).Nodup := by
      rw [Table.keys, List.map_reverse, List.nodup_reverse]
      exact h.nodup
    refine ⟨a, b, ?_, ?_, hagrees, ?_⟩
    · rw [Option.none_or]
      refine Table.find?_flatMap (Table.mem_of_find? h.find?_byType_own) ?_ fun e he hmem =>
        h.eq_typed_of_mem_implied hk he hmem
      rw [h.implied_typed]
      exact (Table.find?_eq_some_iff hnodup).mpr ha
    · rw [(Table.find?_eq_some_iff hreverse).mpr (List.mem_reverse.mpr hb)]
      rfl
    · rw [hagrees.hasObjectType_eq]
      exact h.written_type _ hb

/-! ### Variables -/

theorem keyed_byType : Keyed (byType own typed front behind) where
  nodup := Table.nodup_ofList _
  path_eq e he := h.path_eq e (by
    have := Table.mem_ofList he
    simp only [List.mem_append, List.mem_cons] at this ⊢
    tauto)

theorem keyed_byProperty : Keyed (byProperty own plain front written behind) where
  nodup := Table.nodup_ofList _
  path_eq e he := h.path_eq e (by
    have := Table.mem_ofList he
    simp only [List.mem_append, List.mem_cons] at this ⊢
    tauto)

/-- What is documented as of an object type, and is not the typed entry, is above no property. -/
theorem not_mem_of_hasObjectType {entry : Parameter} {k : ArgPath} (hpath : path ≠ own)
    (hother : path ∉ Table.keys written)
    (hfind : (expanded r (byType own typed front behind)).find? path = some entry)
    (htype : hasObjectType r entry = true) (habove : path.isAbove k = true) :
    k ∉ Table.keys written := by
  intro hk
  rw [expanded, Table.find?_foldl_insertNew, Option.or_eq_some_iff] at hfind
  rcases hfind with hfind | ⟨-, hfind⟩
  · rcases mem_byType (Table.mem_of_find? hfind) with heq | hmem
    · exact hpath (Prod.mk.inj heq).1
    · rw [h.above_type _ hmem k hk (Or.inr habove)] at htype
      cases htype
  · obtain ⟨e, he, hmem⟩ := List.mem_flatMap.mp (Table.mem_of_find? hfind)
    rcases mem_byType he with rfl | he
    · rw [h.implied_typed] at hmem
      rw [← keys_eq_of_agree h.written_props] at hother
      exact hother (List.mem_map.mpr ⟨_, hmem, rfl⟩)
    · have hbelow := ArgPath.isAbove_trans (isAbove_of_mem_implied _ hmem) habove
      rw [implied_of_not_hasObjectType (h.above_type e he k hk (Or.inr hbelow))] at hmem
      cases hmem

/-- A variable that is neither the parameter nor above it becomes the same both ways. -/
theorem resolve_eq {leaf : Parameter} (htype : leaf.type = none) (hleaf : ¬leaf.path.LeadsTo own) :
    resolve r (expanded r (byType own typed front behind)) leaf =
      resolve r (expanded r (byProperty own plain front written behind)) leaf := by
  have hpath : leaf.path ≠ own := fun heq => hleaf (Or.inl heq)
  by_cases hmem : leaf.path ∈ Table.keys written
  · obtain ⟨a, b, ha, hb, hagrees, hplain⟩ := h.find?_expanded_property hmem
    rw [resolve_of_plain ha htype hplain, hagrees.merge_eq, resolve_of_plain hb htype]
    rwa [← hagrees.hasObjectType_eq]
  have hother : isOther own written leaf.path = true := by simp [isOther, hpath, hmem]
  have hfind := h.find?_expanded_eq hother
  cases hentry : (expanded r (byType own typed front behind)).find? leaf.path with
  | none =>
    have hentry' := hfind ▸ hentry
    simp only [resolve, hentry, hentry']
  | some entry =>
    cases hobject : hasObjectType r entry with
    | false =>
      rw [resolve_of_plain hentry htype hobject, resolve_of_plain (hfind ▸ hentry) htype hobject]
    | true =>
      have hkeep : ∀ k, leaf.path.isAbove k = true → isOther own written k = true := by
        intro k habove
        have hne : k ≠ own := fun heq => hleaf (Or.inr (heq ▸ habove))
        have hk := h.not_mem_of_hasObjectType hpath hmem hentry hobject habove
        simp [isOther, hne, hk]
      have hunder : under (expanded r (byType own typed front behind)) leaf.path =
          under (expanded r (byProperty own plain front written behind)) leaf.path := by
        rw [← under_restrict h.keyed_byType.expanded fun k _ => hkeep k,
          ← under_restrict h.keyed_byProperty.expanded fun k _ => hkeep k, h.restrict_expanded_eq]
      exact resolve_congr hfind (by rw [innermost, hunder, innermost])

theorem mismatch?_eq {function name : String} {leaf : Parameter} (hpath : leaf.path ≠ own) :
    mismatch? function name (expanded r (byType own typed front behind)) leaf =
      mismatch? function name (expanded r (byProperty own plain front written behind)) leaf := by
  have hdefault : ((expanded r (byType own typed front behind)).find? leaf.path).bind
      Parameter.default =
        ((expanded r (byProperty own plain front written behind)).find? leaf.path).bind
          Parameter.default := by
    by_cases hmem : leaf.path ∈ Table.keys written
    · obtain ⟨a, b, ha, hb, hagrees, -⟩ := h.find?_expanded_property hmem
      rw [ha, hb, Option.bind_some, Option.bind_some, hagrees.default_eq]
    · rw [h.find?_expanded_eq (by simp [isOther, hpath, hmem])]
  unfold mismatch?
  rw [hdefault]

end WrittenOut

end Documented

namespace Variables

open Documented (WrittenOut byType byProperty expanded)

/-- Variables none of which is the parameter, or above it, are reconciled alike with the parameter
of an object type and with its properties written out. -/
theorem reconcile_of_writtenOut {r : Registry} {own : ArgPath} {props : List (String × PropDef)}
    {typed plain : Parameter} {front written behind : List (ArgPath × Parameter)}
    (h : WrittenOut r own props typed plain front written behind) {vars : Variables}
    (htype : ∀ e ∈ vars, e.2.type = none) (hown : ∀ e ∈ vars, ¬e.2.path.LeadsTo own)
    {doc doc' : Doc} (hdoc : doc.params = byType own typed front behind)
    (hdoc' : doc'.params = byProperty own plain front written behind) (function : String) :
    vars.reconcile function (some doc) r = vars.reconcile function (some doc') r := by
  have hresolve : ∀ e ∈ vars, resolve r (expanded r doc.params) e.2 =
      resolve r (expanded r doc'.params) e.2 := fun e he => by
    rw [hdoc, hdoc']
    exact h.resolve_eq (htype e he) (hown e he)
  have hkept : (vars.filterMap fun e =>
      (resolve r (expanded r doc.params) e.2).row?.map fun row => (e.1, row)) =
        vars.filterMap fun e =>
          (resolve r (expanded r doc'.params) e.2).row?.map fun row => (e.1, row) :=
    List.filterMap_congr fun e he => by rw [hresolve e he]
  have hrows : (vars.flatMap fun e => (resolve r (expanded r doc.params) e.2).rows) =
      vars.flatMap fun e => (resolve r (expanded r doc'.params) e.2).rows :=
    List.flatMap_congr fun e he => by rw [hresolve e he]
  have hmismatch : (vars.filterMap fun e =>
      mismatch? function e.1 (expanded r doc.params) e.2) =
        vars.filterMap fun e => mismatch? function e.1 (expanded r doc'.params) e.2 :=
    List.filterMap_congr fun e he => by
      rw [hdoc, hdoc']
      exact h.mismatch?_eq fun heq => hown e he (Or.inl heq)
  have hcircles : Documented.circles r doc.params = Documented.circles r doc'.params := by
    rw [hdoc, hdoc', h.circles_eq]
  simp only [reconcile, hkept, hrows, hmismatch, hcircles]

end Variables

end CallContract
