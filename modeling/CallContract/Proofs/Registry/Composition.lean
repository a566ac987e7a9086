import CallContract.Proofs.Registry.Circles

/-!
# Lookups in a registry without circles

What becomes of a property depends on the object types within which it stands only where its type
leads back to one of them (`Registry.fill_eq_of_offWay`). If no object type can reach itself, none
leads back, so it is the same at every depth: what the property is by itself. And by itself it has
what the lookup of its own type gives (`Registry.composed_fill_nil`). So a lookup is put together
from the lookups of the types of the properties, and nothing is reported
(`Registry.lookup?_composed`).
-/

namespace CallContract

open Relation (ReflTransGen TransGen)

/-- The property `q` is `p` with the type `t` that it names, of which a lookup gives `u`. -/
structure PropDef.Takes (q p : PropDef) (t : String) (u : TypeDef) : Prop where
  name : q.name = p.name
  default : q.default = p.default
  isOptional : q.isOptional = p.isOptional
  /-- The description of the property comes before that of the type. -/
  description : q.description = p.description.or u.description
  wrapType : q.wrapType = some t
  type : q.type = some u.base
  props : q.props = u.props
  bounds : q.bounds = u.bounds

theorem PropDef.takes_wrapped (p : PropDef) (t : String) (u : TypeDef) :
    (p.wrapped t u).Takes p t u where
  name := rfl
  default := rfl
  isOptional := rfl
  description := Option.orElse_eq_or
  wrapType := rfl
  type := rfl
  props := rfl
  bounds := rfl

namespace Registry

variable {r : Registry} {way way' : List String} {p : PropDef} {name t : String} {d : TypeDef}

/-- No object type can reach itself along properties of object types. -/
def Acyclic (r : Registry) : Prop := ∀ a, ¬TransGen r.Refers a a

/-- A property that a lookup gives in the place of `p` : `p` itself if it names no registered type,
and otherwise `p` with what a lookup of its type gives. -/
inductive Composed (r : Registry) (p : PropDef) : PropDef → Prop
  | kept : (∀ t, p.type = some t → r.find? t = none) → Composed r p p
  | taken {t : String} {u : TypeDef} {q : PropDef} : p.type = some t → r.lookup? t = some u →
    q.Takes p t u → Composed r p q

/-! ## Types that do not lead back -/

theorem isObjectType_of_refers {b : String} (h : r.Refers t b) : r.isObjectType t = true := by
  obtain ⟨_, ⟨d, hfind, ho, -⟩, -⟩ := h
  exact isObjectType_iff.mpr ⟨d, hfind, ho⟩

/-- The type of a property leads to none of the object types `way`. -/
structure OffWay (r : Registry) (way : List String) (p : PropDef) : Prop where
  objects : ∀ a ∈ way, r.isObjectType a = true
  off : ∀ t, p.type = some t → ∀ a ∈ way, ¬ReflTransGen r.Refers t a

theorem offWay_nil (r : Registry) (p : PropDef) : r.OffWay [] p :=
  ⟨fun _ ha => (List.not_mem_nil ha).elim, fun _ _ _ ha => (List.not_mem_nil ha).elim⟩

theorem OffWay.not_mem (h : r.OffWay way p) (hname : p.type = some t) : t ∉ way :=
  fun ht => h.off t hname t ht .refl

/-- If an object type leads to none of the types on the way, and not to itself, neither do the types
of its properties. -/
theorem OffWay.append (hr : r.Acyclic) (h : r.OffWay way p) (hname : p.type = some t)
    (hfind : r.find? t = some d) (ho : d.isObject = true) {e : String × PropDef}
    (he : e ∈ d.props) : r.OffWay (way ++ [t]) e.2 := by
  have hobjects : ∀ a ∈ way ++ [t], r.isObjectType a = true := by
    rw [List.forall_mem_append, List.forall_mem_singleton]
    exact ⟨h.objects, isObjectType_iff.mpr ⟨d, hfind, ho⟩⟩
  refine ⟨hobjects, fun u hu a ha hreach => ?_⟩
  have hobject : r.isObjectType u = true := by
    rcases ReflTransGen.cases_head hreach with rfl | ⟨b, hub, -⟩
    · exact hobjects u ha
    · exact isObjectType_of_refers hub
  have hrefers : r.Refers t u := ⟨e.2, ⟨d, hfind, ho, e.1, he⟩, hu, hobject⟩
  rcases List.mem_append.mp ha with ha | ha
  · exact h.off t hname a ha (.head hrefers hreach)
  · rw [List.mem_singleton.mp ha] at hreach
    exact hr t (TransGen.head'_iff.mpr ⟨u, hrefers, hreach⟩)

theorem filledIn_congr (h : ∀ e ∈ d.props, r.fill way' e.2 = r.fill way e.2) :
    r.filledIn way' d = r.filledIn way d := by
  rw [filledIn, filledIn, List.map_congr_left fun e he => by rw [h e he]]

theorem circlesIn_congr (h : ∀ e ∈ d.props, r.fill way' e.2 = r.fill way e.2) :
    r.circlesIn way' d = r.circlesIn way d :=
  List.flatMap_congr fun e he => by rw [h e he]

/-- The induction is along one way, for all others that the type does not lead back to either : the
two grow by the same types. -/
theorem fill_eq_of_offWay (hr : r.Acyclic) (way : List String) (p : PropDef) : r.OffWay way p →
    ∀ way', r.OffWay way' p → r.fill way' p = r.fill way p := by
  induction way, p using fill_induction (r := r) with | step way p ih
  intro h way' h'
  cases hname : p.type with
  | none => rw [fill_of_type_eq_none hname, fill_of_type_eq_none hname]
  | some t =>
    have hway := h.not_mem hname
    have hway' := h'.not_mem hname
    cases hfind : r.find? t with
    | none =>
      rw [fill_of_find?_eq_none hname hway hfind, fill_of_find?_eq_none hname hway' hfind]
    | some d =>
      cases ho : d.isObject with
      | false =>
        rw [fill_of_not_isObject hname hway hfind ho, fill_of_not_isObject hname hway' hfind ho]
      | true =>
        have hbelow : ∀ e ∈ d.props, r.fill (way' ++ [t]) e.2 = r.fill (way ++ [t]) e.2 :=
          fun e he => ih t d hname hway hfind ho e he (h.append hr hname hfind ho he) _
            (h'.append hr hname hfind ho he)
        rw [fill_of_isObject hname hway hfind ho, fill_of_isObject hname hway' hfind ho,
          filledIn_congr hbelow, circlesIn_congr hbelow]

/-! ## Lookups -/

/-- By itself a property has what a lookup of its type gives. -/
theorem composed_fill_nil (r : Registry) (p : PropDef) : r.Composed p (r.fill [] p).1 := by
  cases fill_cases r [] p with
  | kept hname hfill =>
    rw [hfill]
    exact .kept fun t ht => (hname t ht).1
  | circle t _ hway _ => exact (List.not_mem_nil hway).elim
  | plain t d hname _ hfind ho hfill =>
    rw [hfill]
    exact .taken hname (lookup?_of_not_isObject hfind ho) (p.takes_wrapped t d)
  | object t d hname _ hfind ho hfill =>
    rw [hfill]
    exact .taken hname (lookup?_of_isObject hfind ho) (p.takes_wrapped t _)

/-- Without circles nothing is reported. -/
theorem Acyclic.circles_eq_nil (hr : r.Acyclic) (name : String) : (r.expand name).2 = [] := by
  refine List.eq_nil_iff_forall_not_mem.mpr fun w hw => ?_
  obtain ⟨circle, back, -, hstart, hcircle⟩ := circle_of_mem_expand hw
  obtain ⟨b, -, hb⟩ := hcircle.reachesCircle hstart
  exact hr b hb

/-- If no object type can reach itself along properties of object types, a lookup of an object type
gives its definition, in which each property of a registered type has become what the lookup of that
type gives, and each other one is as it was. Nothing is reported. -/
theorem lookup?_composed (hr : r.Acyclic) (hfind : r.find? name = some d)
    (ho : d.isObject = true) : ∃ props, r.lookup? name = some { d with props } ∧
      List.Forall₂ (fun e f => f.1 = e.1 ∧ r.Composed e.2 f.2) d.props props ∧
        (r.expand name).2 = [] := by
  refine ⟨(r.filledIn [name] d).props, lookup?_of_isObject hfind ho, ?_, hr.circles_eq_nil name⟩
  rw [filledIn, List.forall₂_map_right_iff, List.forall₂_same]
  refine fun e he => ⟨rfl, ?_⟩
  have hoff : r.OffWay [name] e.2 :=
    (offWay_nil r { name := "", type := some name }).append hr rfl hfind ho he
  rw [← fill_eq_of_offWay hr [name] e.2 hoff [] (offWay_nil r e.2)]
  exact composed_fill_nil r e.2

/-- There is no circle if types refer only to types of a lower rank. -/
theorem acyclic_of_rank (rank : String → Nat) (h : ∀ d ∈ r.defs, ∀ e ∈ d.props,
    ∀ b ∈ e.2.type, r.isObjectType b = true → rank b < rank d.name) : r.Acyclic := by
  have hlt : ∀ a b, r.Refers a b → rank b < rank a := by
    rintro a b ⟨p, ⟨d, hfind, -, key, hp⟩, hb, hobject⟩
    rw [← name_of_find? hfind]
    exact h d (mem_of_find? hfind) (key, p) hp b hb hobject
  have hreach : ∀ a b, TransGen r.Refers a b → rank b < rank a := fun a b hab => by
    induction hab with
    | single hab => exact hlt a _ hab
    | tail _ hbc ih => exact (hlt _ _ hbc).trans ih
  exact fun a ha => Nat.lt_irrefl _ (hreach a a ha)

/-- Two properties of one object type, a property of which is of the type of the second. -/
def sharedTypes : Registry :=
  ⟨[{ name := "T", base := "Object", props := [("a", { name := "a", type := some "U" }),
      ("b", { name := "b", type := some "V", description := some "B" })] },
    { name := "U", base := "Object", props := [("v", { name := "v", type := some "V" })] },
    { name := "V", base := "Object", description := some "V",
      props := [("n", { name := "n", type := some "N" }),
        ("s", { name := "s", type := some "string" })] },
    { name := "N", base := "number", bounds := { minimum := some 1 } }], by decide⟩

theorem acyclic_sharedTypes : sharedTypes.Acyclic :=
  acyclic_of_rank (fun t => if t = "T" then 2 else if t = "U" then 1 else 0) (by decide)

/-- A property takes its properties from the lookup of its type, and keeps its own description. -/
theorem lookup?_composed_sharedTypes : sharedTypes.Acyclic ∧ ∃ a b u,
    sharedTypes.lookup? "T" = some { name := "T", base := "Object", props := [a, ("b", b)] } ∧
      sharedTypes.lookup? "V" = some u ∧ b.type = some u.base ∧ b.props = u.props ∧
      b.description = some "B" ∧ b.wrapType = some "V" ∧ (sharedTypes.expand "T").2 = [] := by
  have hfind : sharedTypes.find? "T" = some _ := rfl
  obtain ⟨props, hlookup, hprops, hcircles⟩ := lookup?_composed acyclic_sharedTypes hfind rfl
  obtain ⟨a, _, -, hrest, rfl⟩ := List.forall₂_cons_left_iff.mp hprops
  obtain ⟨⟨_, b⟩, _, ⟨rfl, hb⟩, hnil, rfl⟩ := List.forall₂_cons_left_iff.mp hrest
  obtain rfl := List.forall₂_nil_left_iff.mp hnil
  cases hb with
  | kept hnone => cases hnone "V" rfl
  | @taken _ u _ hname hu htakes =>
    obtain rfl := Option.some.inj hname
    exact ⟨acyclic_sharedTypes, a, b, u, hlookup, hu, htakes.type, htakes.props,
      htakes.description, htakes.wrapType, hcircles⟩

end Registry

end CallContract
