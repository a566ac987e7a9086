import CallContract.Proofs.Registry.Filling
import Mathlib.Data.List.Forall2
import Mathlib.Data.List.Perm.Subperm

/-!
# Nested properties of a type that was looked up

A lookup goes no deeper than there are object types, and one step more : the recursion that is
cut off below that depth gives the same (`expandWithin_eq`). What it gives is told along the
chains of nested properties. In a registry whose properties have not been filled in before, the
object types along a chain are distinct, and so there are no long chains; and below each chain
stand the properties of the type that the chain ends in, of which those of an object type are
filled in exactly if their type is registered and is none of the object types along the chain,
and all others are as they were declared (`nested_filledIn`, `lookup?_nesting`).
-/

namespace CallContract

namespace PropDef

/-- Properties of which the first is one of `props`, and each other one of those of the property
before it. -/
def Chain : List (String × PropDef) → List PropDef → Prop
  | _, [] => True
  | props, p :: ps => (∃ key, (key, p) ∈ props) ∧ Chain p.props ps

/-- The properties below a chain. -/
def propsBelow : List (String × PropDef) → List PropDef → List (String × PropDef)
  | props, [] => props
  | _, p :: ps => propsBelow p.props ps

theorem eq_nil_of_chain_nil : ∀ {ps : List PropDef}, Chain [] ps → ps = []
  | [], _ => rfl
  | _ :: _, ⟨⟨_, hp⟩, _⟩ => (List.not_mem_nil hp).elim

end PropDef

namespace Registry

variable {r : Registry} {way : List String} {name : String} {d : TypeDef}

/-- No property has had its type filled in. -/
def Unexpanded (r : Registry) : Prop :=
  ∀ d ∈ r.defs, ∀ e ∈ d.props, e.2.wrapType = none ∧ e.2.props = []

/-- The names of the object types. -/
def objectNames (r : Registry) : List String := TypeDef.names (r.defs.filter TypeDef.isObject)

/-- The object types that were filled in along a chain of nested properties. -/
def objectsAlong (r : Registry) (ps : List PropDef) : List String :=
  (ps.filterMap PropDef.wrapType).filter r.isObjectType

/-- The type whose properties stand below a chain of nested properties of the type `d`. -/
def declaring? (r : Registry) : TypeDef → List PropDef → Option TypeDef
  | d, [] => some d
  | _, p :: ps => (p.wrapType.bind r.find?).bind fun d => declaring? r d ps

/-- What becomes of a property `p` of an object type within the object types `above`. -/
inductive Becomes (r : Registry) (above : List String) (p : PropDef) : PropDef → Prop
  | kept : (∀ t, p.type = some t → r.contains t = true → t ∈ above) → Becomes r above p p
  | filled {t : String} {d : TypeDef} (props : List (String × PropDef)) :
    p.type = some t → r.find? t = some d → t ∉ above →
      Becomes r above p (p.wrapped t { d with props })

/-- The properties `props` are those of a type, each with what has become of it within the
object types `above`; there are none if there is no type. -/
def Declared (r : Registry) (above : List String) (props : List (String × PropDef)) :
    Option TypeDef → Prop
  | none => props = []
  | some d => List.Forall₂
      (fun e f => f.1 = e.1 ∧ if d.isObject then r.Becomes above e.2 f.2 else f.2 = e.2)
      d.props props

/-! ## Depth -/

/-- What becomes of a property within the object types `way`, if `look` tells what becomes of the
type that it names. -/
def fillWith (way : List String) (look : String → Option (Option TypeDef × List Warning))
    (e : String × PropDef) : Option ((String × PropDef) × List Warning) :=
  match e.2.type with
  | none => some (e, [])
  | some t =>
    if t ∈ way then some (e, [.circularAlias (way ++ [t])])
    else (look t).map fun x => ((e.1, (x.1.map (e.2.wrapped t)).getD e.2), x.2)

/-- Filling in, going at most `n` types deep : none if that is not enough. -/
def expandWithin (r : Registry) : Nat → List String → String →
    Option (Option TypeDef × List Warning)
  | 0, _, _ => none
  | n + 1, way, name =>
    match r.find? name with
    | none => some (none, [])
    | some d =>
      if d.isObject then
        (d.props.mapM (fillWith (way ++ [name]) (r.expandWithin n (way ++ [name])))).map
          fun filled => (some { d with props := filled.map Prod.fst }, filled.flatMap Prod.snd)
      else some (some d, [])

theorem mem_objectNames (hfind : r.find? name = some d) (ho : d.isObject = true) :
    name ∈ r.objectNames :=
  List.mem_map.mpr ⟨d, List.mem_filter.mpr ⟨mem_of_find? hfind, ho⟩, name_of_find? hfind⟩

theorem mem_objectNames_of_isObjectType (h : r.isObjectType name = true) :
    name ∈ r.objectNames := by
  obtain ⟨d, hfind, ho⟩ := isObjectType_iff.mp h
  exact mem_objectNames hfind ho

theorem mapM_eq_some_map {α β : Type} {f : α → Option β} {g : α → β} :
    ∀ {l : List α}, (∀ a ∈ l, f a = some (g a)) → l.mapM f = some (l.map g)
  | [], _ => rfl
  | a :: l, h => by
    obtain ⟨ha, hl⟩ := List.forall_mem_cons.mp h
    rw [List.mapM_cons, ha, mapM_eq_some_map hl]
    rfl

/-- With what `expandFrom` gives for the types off the way, a property becomes what it should. -/
theorem fillWith_eq {look : String → Option (Option TypeDef × List Warning)}
    (h : ∀ t (ht : t ∉ way), look t = some (r.expandFrom way t ht)) (e : String × PropDef) :
    fillWith way look e = some ((e.1, (r.fill way e.2).1), (r.fill way e.2).2) := by
  unfold fillWith fill
  cases hname : e.2.type with
  | none => rfl
  | some t =>
    by_cases hway : t ∈ way
    · simp only [if_pos hway, dif_pos hway]
    · simp only [if_neg hway, dif_neg hway, h t hway, Option.map_some]
      rcases r.expandFrom way t hway with ⟨_ | f, ws⟩ <;> rfl

/-- A depth is enough if, with the types on the way, it exceeds the number of object types. -/
theorem expandWithin_eq : ∀ (n : Nat) (way : List String) (name : String) (h : name ∉ way),
    way.Nodup → way ⊆ r.objectNames → r.objectNames.length < n + way.length →
      r.expandWithin n way name = some (r.expandFrom way name h)
  | 0, way, name, _, hnodup, hsub, hlen => by
    have := (hnodup.subperm hsub).length_le
    omega
  | n + 1, way, name, h, hnodup, hsub, hlen => by
    rw [expandWithin]
    cases hfind : r.find? name with
    | none => rw [expandFrom_of_find?_eq_none hfind]
    | some d =>
      cases ho : d.isObject with
      | false =>
        rw [expandFrom_of_not_isObject hfind ho]
        simp [ho]
      | true =>
        have hdeeper : ∀ t (ht : t ∉ way ++ [name]), r.expandWithin n (way ++ [name]) t =
            some (r.expandFrom (way ++ [name]) t ht) := fun t ht =>
          expandWithin_eq n (way ++ [name]) t ht (nodup_append_singleton hnodup h)
            (List.append_subset.mpr ⟨hsub, by simpa using mem_objectNames hfind ho⟩)
            (by rw [List.length_append, List.length_singleton]; omega)
        rw [expandFrom_of_isObject hfind ho, ← filledIn_of_step fun _ _ => rfl]
        simp only [ho, if_true]
        rw [mapM_eq_some_map fun e _ => fillWith_eq hdeeper e, Option.map_some]

/-! ## Chains -/

variable {props : List (String × PropDef)} {q : PropDef} {ps : List PropDef} {t : String}
  {c : TypeDef}

/-- What a chain has : distinct object types, few other types, and below it what is declared. -/
structure Nested (r : Registry) (way : List String) (d : TypeDef)
    (props : List (String × PropDef)) (ps : List PropDef) : Prop where
  nodup : (way ++ r.objectsAlong ps).Nodup
  length_le : ps.length ≤ (r.objectsAlong ps).length + 2
  declared : r.Declared (way ++ r.objectsAlong ps) (PropDef.propsBelow props ps)
    (r.declaring? d ps)

theorem nested_nil (hway : way.Nodup) (h : r.Declared way props (some d)) :
    r.Nested way d props [] :=
  ⟨by simpa [objectsAlong] using hway, Nat.zero_le _,
    by simpa [objectsAlong, PropDef.propsBelow, declaring?] using h⟩

/-- A property that was not filled in ends a chain. -/
theorem nested_cons_of_unexpanded (hway : way.Nodup) (hwrap : q.wrapType = none)
    (hprops : q.props = []) (hps : PropDef.Chain q.props ps) : r.Nested way d props (q :: ps) := by
  rw [hprops] at hps
  obtain rfl := PropDef.eq_nil_of_chain_nil hps
  refine ⟨by simpa [objectsAlong, hwrap] using hway, by simp, ?_⟩
  rw [declaring?, hwrap]
  exact hprops

theorem declaring?_cons (hwrap : q.wrapType = some t) (hfind : r.find? t = some c) :
    r.declaring? d (q :: ps) = r.declaring? c ps := by
  simp [declaring?, hwrap, hfind]

/-- Below a property that was filled in with a type that is no object type. -/
theorem nested_cons_of_not_isObject (hwrap : q.wrapType = some t) (hfind : r.find? t = some c)
    (ho : c.isObject = false) (h : r.Nested way c q.props ps) (hlen : ps.length ≤ 1) :
    r.Nested way d props (q :: ps) := by
  have halong : r.objectsAlong (q :: ps) = r.objectsAlong ps := by
    simp [objectsAlong, hwrap, isObjectType, hfind, ho]
  refine ⟨by rw [halong]; exact h.nodup, by rw [List.length_cons]; omega, ?_⟩
  rw [halong, declaring?_cons hwrap hfind]
  exact h.declared

/-- Below a property that was filled in with an object type. -/
theorem nested_cons_of_isObject (hwrap : q.wrapType = some t) (hfind : r.find? t = some c)
    (ho : c.isObject = true) (h : r.Nested (way ++ [t]) c q.props ps) :
    r.Nested way d props (q :: ps) := by
  have halong : r.objectsAlong (q :: ps) = t :: r.objectsAlong ps := by
    simp [objectsAlong, hwrap, isObjectType, hfind, ho]
  have happend : way ++ r.objectsAlong (q :: ps) = (way ++ [t]) ++ r.objectsAlong ps := by
    rw [halong, List.append_assoc, List.singleton_append]
  refine ⟨by rw [happend]; exact h.nodup, ?_, ?_⟩
  · have := h.length_le
    rw [halong, List.length_cons, List.length_cons]
    omega
  · rw [happend, declaring?_cons hwrap hfind]
    exact h.declared

/-- The properties of a type that is no object type are as declared, and no chain among them is
longer than one. -/
theorem nested_of_not_isObject (h : ∀ e ∈ d.props, e.2.wrapType = none ∧ e.2.props = [])
    (ho : d.isObject = false) (hway : way.Nodup) (hps : PropDef.Chain d.props ps) :
    r.Nested way d d.props ps ∧ ps.length ≤ 1 := by
  cases ps with
  | nil =>
    refine ⟨nested_nil hway ?_, Nat.zero_le 1⟩
    simp only [Declared, ho, Bool.false_eq_true, if_false]
    exact List.forall₂_same.mpr fun _ _ => ⟨rfl, rfl⟩
  | cons p ps =>
    obtain ⟨⟨key, hp⟩, hps⟩ := hps
    obtain ⟨hwrap, hprops⟩ := h (key, p) hp
    refine ⟨nested_cons_of_unexpanded hway hwrap hprops hps, ?_⟩
    rw [hprops] at hps
    simp [PropDef.eq_nil_of_chain_nil hps]

theorem becomes_fill (r : Registry) (way : List String) (p : PropDef) :
    r.Becomes way p (r.fill way p).1 := by
  cases fill_cases r way p with
  | kept hname hfill =>
    rw [hfill]
    refine .kept fun t ht hc => ?_
    rw [contains, (hname t ht).1] at hc
    cases hc
  | circle t hname ht hfill =>
    rw [hfill]
    refine .kept fun u hu _ => ?_
    obtain rfl := Option.some.inj (hname.symm.trans hu)
    exact ht
  | plain t d hname ht hfind ho hfill =>
    rw [hfill]
    exact .filled d.props hname hfind ht
  | object t d hname ht hfind ho hfill =>
    rw [hfill]
    exact .filled _ hname hfind ht

/-- Below an object type whose properties were filled in : a property that was kept ends the
chain, below one of a type that is no object type stand unexpanded properties, and below one of
an object type it is the same one type further down. -/
theorem nested_filledIn (hr : r.Unexpanded) : ∀ (ps : List PropDef) {way : List String}
    {d : TypeDef}, d ∈ r.defs → d.isObject = true → way.Nodup →
      PropDef.Chain (r.filledIn way d).props ps → r.Nested way d (r.filledIn way d).props ps
  | [], way, d, _, ho, hway, _ => by
    refine nested_nil hway ?_
    simp only [Declared, filledIn, ho, if_true]
    rw [List.forall₂_map_right_iff, List.forall₂_same]
    exact fun e _ => ⟨rfl, becomes_fill r way e.2⟩
  | q :: ps, way, d, hd, _, hway, ⟨⟨key, hq⟩, hps⟩ => by
    obtain ⟨⟨_, p⟩, hp, heq⟩ := List.mem_map.mp hq
    obtain ⟨rfl, rfl⟩ := Prod.mk.inj heq
    obtain ⟨hwrap, hprops⟩ := hr d hd _ hp
    cases fill_cases r way p with
    | kept _ hfill | circle _ _ _ hfill =>
      rw [hfill] at hps ⊢
      exact nested_cons_of_unexpanded hway hwrap hprops hps
    | plain t c hname ht hfind ho hfill =>
      rw [hfill] at hps ⊢
      obtain ⟨hnested, hlen⟩ := nested_of_not_isObject (hr c (mem_of_find? hfind)) ho hway hps
      exact nested_cons_of_not_isObject rfl hfind ho hnested hlen
    | object t c hname ht hfind ho hfill =>
      rw [hfill] at hps ⊢
      exact nested_cons_of_isObject rfl hfind ho (nested_filledIn hr ps (mem_of_find? hfind) ho
        (nodup_append_singleton hway ht) hps)

/-! ## The result of a lookup -/

theorem objectsAlong_subset (ps : List PropDef) : r.objectsAlong ps ⊆ r.objectNames := by
  intro t ht
  exact mem_objectNames_of_isObjectType (List.mem_filter.mp ht).2

/-- A lookup ends : cut off below as many types as there are object types, and one more, it
gives the same. A registered name has a result, which differs from its definition in the
properties alone. Along every chain of nested properties the object types are distinct, the name
that was looked up being one of them, and so a chain is at most one longer than there are object
types; and what stands below it is what its type declares, where a property of an object type is
filled in exactly if its type is registered and is none of the object types above it. -/
theorem lookup?_nesting (hr : r.Unexpanded) (name : String) :
    r.expandWithin (r.objectNames.length + 1) [] name = some (r.expand name) ∧
      (r.find? name = none → r.lookup? name = none) ∧
      ∀ d, r.find? name = some d → ∃ props, r.lookup? name = some { d with props } ∧
        ∀ ps, PropDef.Chain props ps →
          (name :: r.objectsAlong ps).Nodup ∧ ps.length ≤ r.objectNames.length + 1 ∧
            r.Declared (name :: r.objectsAlong ps) (PropDef.propsBelow props ps)
              (r.declaring? d ps) := by
  refine ⟨?_, fun hfind => ?_, fun d hfind => ?_⟩
  · exact expandWithin_eq _ [] name List.not_mem_nil List.nodup_nil (List.nil_subset _)
      (by simp)
  · rw [lookup?, expand_of_find?_eq_none hfind]
  have hname : [name].Nodup := List.pairwise_singleton _ name
  have hd := mem_of_find? hfind
  cases ho : d.isObject with
  | false =>
    refine ⟨d.props, by rw [lookup?, expand_of_not_isObject hfind ho], fun ps hps => ?_⟩
    obtain ⟨hnested, hlen⟩ := nested_of_not_isObject (r := r) (hr d hd) ho hname hps
    exact ⟨hnested.nodup, by omega, hnested.declared⟩
  | true =>
    refine ⟨(r.filledIn [name] d).props, by rw [lookup?, expand_of_isObject hfind ho]; rfl,
      fun ps hps => ?_⟩
    have hnested := nested_filledIn hr ps hd ho hname hps
    have hsub : name :: r.objectsAlong ps ⊆ r.objectNames :=
      List.cons_subset.mpr ⟨mem_objectNames hfind ho, objectsAlong_subset ps⟩
    refine ⟨hnested.nodup, ?_, hnested.declared⟩
    have hcount := (List.Nodup.subperm hnested.nodup hsub).length_le
    have hlen := hnested.length_le
    simp only [List.singleton_append, List.length_cons] at hcount
    omega

/-- Two object types that refer to each other, the second also to a type of numbers. -/
def mutualTypes : Registry :=
  ⟨[{ name := "A", base := "Object", props := [("b", { name := "b", type := some "B" })] },
    { name := "B", base := "Object", props := [("a", { name := "a", type := some "A" }),
      ("n", { name := "n", type := some "N" })] },
    { name := "N", base := "number", props := [("x", { name := "x", type := some "A" })] }],
    by decide⟩

theorem lookup?_nesting_mutualTypes : mutualTypes.Unexpanded ∧
    mutualTypes.expandWithin 3 [] "A" = some (mutualTypes.expand "A") ∧
    ∃ props, mutualTypes.lookup? "A" = some { name := "A", base := "Object", props } ∧
      props = [("b", { name := "b", type := some "Object", wrapType := some "B", props :=
        [("a", { name := "a", type := some "A" }),
          ("n", { name := "n", type := some "number", wrapType := some "N", props :=
            [("x", { name := "x", type := some "A" })] })] })] ∧
      ∀ ps, PropDef.Chain props ps → ps.length ≤ 3 := by
  have hr : mutualTypes.Unexpanded := by unfold Unexpanded; decide
  obtain ⟨hdeep, -, h⟩ := lookup?_nesting hr "A"
  obtain ⟨props, hprops, hchain⟩ := h _ rfl
  refine ⟨hr, hdeep, props, hprops, ?_, fun ps hps => (hchain ps hps).2.1⟩
  have hvalue : (mutualTypes.expandWithin 3 [] "A").map Prod.fst =
      some (some { name := "A", base := "Object", props :=
        [("b", { name := "b", type := some "Object", wrapType := some "B", props :=
          [("a", { name := "a", type := some "A" }),
            ("n", { name := "n", type := some "number", wrapType := some "N", props :=
              [("x", { name := "x", type := some "A" })] })] })] }) := by rfl
  have hlookup : (mutualTypes.expandWithin 3 [] "A").map Prod.fst =
      some (mutualTypes.lookup? "A") := congrArg (Option.map Prod.fst) hdeep
  rw [hlookup, hprops] at hvalue
  exact congrArg TypeDef.props (Option.some.inj (Option.some.inj hvalue))

end Registry

end CallContract
