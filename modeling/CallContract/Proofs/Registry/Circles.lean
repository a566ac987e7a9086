import CallContract.Proofs.Registry.Filling
import Mathlib.Data.List.Chain

/-!
# Circles of named types

An object type refers to another if it has a property of that type (`Registry.Refers`). The way
down to a property is a walk along references without repetition (`Registry.IsWay`). Every
circle that is reported is such a walk and one reference back into it (`circle_of_mem_expand`),
and below a type from which a circle can be reached a circle is reported, since it can still be
reached from one of the types that the type refers to (`fill_ne_nil`). So a lookup reports a
circle exactly if a circle can be reached from the name that is looked up
(`circularAlias_mem_expand_iff`).
-/

namespace CallContract

open Relation (ReflTransGen TransGen)

namespace Registry

variable {r : Registry} {way : List String} {p : PropDef} {name t : String}

/-- The object type `a` has the property `p`. -/
def Declares (r : Registry) (a : String) (p : PropDef) : Prop :=
  ∃ d, r.find? a = some d ∧ d.isObject = true ∧ ∃ key, (key, p) ∈ d.props

/-- The object type `a` has a property of the object type `b`. -/
def Refers (r : Registry) (a b : String) : Prop :=
  ∃ p, r.Declares a p ∧ p.type = some b ∧ r.isObjectType b = true

/-- From `a` a circle of references can be reached. -/
def ReachesCircle (r : Registry) (a : String) : Prop :=
  ∃ b, ReflTransGen r.Refers a b ∧ TransGen r.Refers b b

/-! ## Ways -/

/-- Object types, each of which refers to the next, none of them twice. -/
structure IsWay (r : Registry) (way : List String) : Prop where
  nodup : way.Nodup
  chain : way.IsChain r.Refers
  objects : ∀ a ∈ way, r.isObjectType a = true

theorem isWay_singleton (h : r.isObjectType name = true) : r.IsWay [name] :=
  ⟨List.pairwise_singleton _ name, List.isChain_singleton name, by simpa using h⟩

theorem isChain_append_of_declares (hway : way.IsChain r.Refers)
    (hp : ∀ a ∈ way.getLast?, r.Declares a p) (hname : p.type = some t)
    (ht : r.isObjectType t = true) : (way ++ [t]).IsChain r.Refers := by
  refine List.isChain_append.mpr ⟨hway, List.isChain_singleton t, fun a ha b hb => ?_⟩
  obtain rfl : t = b := by simpa using hb
  exact ⟨p, hp a ha, hname, ht⟩

/-- Off the way, the way goes on. -/
theorem IsWay.append (h : r.IsWay way) (hp : ∀ a ∈ way.getLast?, r.Declares a p)
    (hname : p.type = some t) (ht : r.isObjectType t = true) (hway : t ∉ way) :
    r.IsWay (way ++ [t]) where
  nodup := nodup_append_singleton h.nodup hway
  chain := isChain_append_of_declares h.chain hp hname ht
  objects a ha := by
    rcases List.mem_append.mp ha with ha | ha
    · exact h.objects a ha
    · rw [List.mem_singleton.mp ha]
      exact ht

/-! ## Every reported circle is one -/

/-- A way that refers back to one of its types. -/
structure IsCircle (r : Registry) (circle : List String) (back : String) : Prop extends
    r.IsWay circle where
  back_mem : back ∈ circle
  refers_back : (circle ++ [back]).IsChain r.Refers

/-- What is reported below a way is a circle that the way leads to. -/
theorem circle_of_mem_fill (way : List String) (p : PropDef) : r.IsWay way →
    (∀ a ∈ way.getLast?, r.Declares a p) → ∀ w ∈ (r.fill way p).2,
      ∃ circle back, w = .circularAlias (circle ++ [back]) ∧ way <+: circle ∧
        r.IsCircle circle back := by
  induction way, p using fill_induction (r := r) with | step way p ih
  intro hway hp w hw
  cases fill_cases r way p with
  | kept _ hfill | plain _ _ _ _ _ _ hfill => simp [hfill] at hw
  | circle t hname ht hfill =>
    rw [hfill, List.mem_singleton] at hw
    exact ⟨way, t, hw, List.prefix_refl way, hway, ht,
      isChain_append_of_declares hway.chain hp hname (hway.objects t ht)⟩
  | object t d hname ht hfind ho hfill =>
    rw [hfill] at hw
    obtain ⟨e, he, hw⟩ := List.mem_flatMap.mp hw
    have hobject : r.isObjectType t = true := isObjectType_iff.mpr ⟨d, hfind, ho⟩
    have hlast : ∀ a ∈ (way ++ [t]).getLast?, r.Declares a e.2 := by
      intro a ha
      obtain rfl : t = a := by simpa using ha
      exact ⟨d, hfind, ho, e.1, he⟩
    obtain ⟨circle, back, rfl, hstart, hcircle⟩ :=
      ih t d hname ht hfind ho e he (hway.append hp hname hobject ht) hlast w hw
    exact ⟨circle, back, rfl, (List.prefix_append way [t]).trans hstart, hcircle⟩

/-- What a lookup reports is a circle that starts at the name. -/
theorem circle_of_mem_expand {w : Warning} (hw : w ∈ (r.expand name).2) :
    ∃ circle back, w = .circularAlias (circle ++ [back]) ∧ [name] <+: circle ∧
      r.IsCircle circle back := by
  cases hfind : r.find? name with
  | none => simp [expand_of_find?_eq_none hfind] at hw
  | some d =>
    cases ho : d.isObject with
    | false => simp [expand_of_not_isObject hfind ho] at hw
    | true =>
      rw [expand_of_isObject hfind ho] at hw
      obtain ⟨e, he, hw⟩ := List.mem_flatMap.mp hw
      refine circle_of_mem_fill [name] e.2 (isWay_singleton ?_) (fun a ha => ?_) w hw
      · exact isObjectType_iff.mpr ⟨d, hfind, ho⟩
      · obtain rfl : name = a := by simpa using ha
        exact ⟨d, hfind, ho, e.1, he⟩

/-- The last type of a circle is reached from the first, and reaches itself. -/
theorem IsCircle.reachesCircle {circle : List String} {back : String}
    (h : r.IsCircle circle back) (hstart : [name] <+: circle) : r.ReachesCircle name := by
  obtain ⟨rest, rfl⟩ := hstart
  obtain ⟨front, behind, hsplit⟩ := List.append_of_mem h.back_mem
  have hchain := h.refers_back
  refine ⟨back, ?_, ?_⟩
  · have hfront : (front ++ [back]).IsChain r.Refers := by
      rw [hsplit, List.append_cons front back behind, List.append_assoc] at hchain
      exact hchain.left_of_append
    have hhead : (front ++ [back]).head (by simp) = name := by
      rw [List.head_eq_iff_head?_eq_some]
      cases front with
      | nil => simpa using (congrArg List.head? hsplit).symm
      | cons a front => simpa using (congrArg List.head? hsplit).symm
    simpa [hhead] using List.relationReflTransGen_of_exists_isChain _ hfront (by simp)
  · have hbehind : (back :: (behind ++ [back])).IsChain r.Refers := by
      rw [hsplit, List.append_assoc] at hchain
      exact hchain.right_of_append
    cases behind with
    | nil => exact .single (List.isChain_cons_cons.mp hbehind).1
    | cons b behind =>
      obtain ⟨hb, hrest⟩ := List.isChain_cons_cons.mp hbehind
      refine .head' hb (List.relationReflTransGen_of_exists_isChain_cons _ hrest ?_)
      simp

/-! ## Every circle is reported -/

/-- A circle that can be reached from a type can be reached from a type that it refers to. -/
theorem ReachesCircle.exists_refers (h : r.ReachesCircle t) :
    ∃ u, r.Refers t u ∧ r.ReachesCircle u := by
  obtain ⟨b, hreach, hcircle⟩ := h
  rcases ReflTransGen.cases_head hreach with rfl | ⟨u, htu, hub⟩
  · obtain ⟨u, htu, hut⟩ := TransGen.head'_iff.mp hcircle
    exact ⟨u, htu, t, hut, hcircle⟩
  · exact ⟨u, htu, b, hub, hcircle⟩

/-- Below a property from whose type a circle can be reached a circle is reported. -/
theorem fill_ne_nil (way : List String) (p : PropDef) : p.type = some t →
    r.isObjectType t = true → r.ReachesCircle t → (r.fill way p).2 ≠ [] := by
  induction way, p using fill_induction (r := r) generalizing t with | step way p ih
  intro hname hobject hreach
  cases fill_cases r way p with
  | kept hkept _ =>
    obtain ⟨d, hfind, _⟩ := isObjectType_iff.mp hobject
    rw [(hkept t hname).1] at hfind
    cases hfind
  | circle u _ _ hfill => simp [hfill]
  | plain u d hu _ hfind ho _ =>
    obtain rfl := Option.some.inj (hname.symm.trans hu)
    rw [isObjectType, hfind, Option.any_some, ho] at hobject
    cases hobject
  | object u d hu hway hfind ho hfill =>
    obtain rfl := Option.some.inj (hname.symm.trans hu)
    obtain ⟨v, ⟨q, ⟨e, he, _, key, hq⟩, hv, hvobject⟩, hvreach⟩ := hreach.exists_refers
    obtain rfl := Option.some.inj (hfind.symm.trans he)
    have hbelow := ih t d hname hway hfind ho (key, q) hq hv hvobject hvreach
    rw [hfill]
    exact fun hnil => hbelow (List.flatMap_eq_nil_iff.mp hnil (key, q) hq)

/-- A lookup reports a circle exactly if the name is that of an object type from which, along
properties of object types, an object type can be reached that can reach itself. -/
theorem circularAlias_mem_expand_iff (r : Registry) (name : String) :
    (∃ chain, .circularAlias chain ∈ (r.expand name).2) ↔
      r.isObjectType name = true ∧
        ∃ b, ReflTransGen r.Refers name b ∧ TransGen r.Refers b b := by
  constructor
  · rintro ⟨chain, hw⟩
    obtain ⟨circle, back, -, hstart, hcircle⟩ := circle_of_mem_expand hw
    exact ⟨hcircle.objects name (hstart.subset (List.mem_singleton_self name)),
      hcircle.reachesCircle hstart⟩
  · rintro ⟨hobject, hreach⟩
    obtain ⟨d, hfind, ho⟩ := isObjectType_iff.mp hobject
    obtain ⟨u, ⟨p, ⟨e, he, _, key, hp⟩, hu, huobject⟩, hureach⟩ :=
      ReachesCircle.exists_refers hreach
    obtain rfl := Option.some.inj (hfind.symm.trans he)
    obtain ⟨w, hw⟩ := List.exists_mem_of_ne_nil _ (fill_ne_nil [name] p hu huobject hureach)
    have hmem : w ∈ (r.expand name).2 := by
      rw [expand_of_isObject hfind ho]
      exact List.mem_flatMap.mpr ⟨(key, p), hp, hw⟩
    obtain ⟨circle, back, rfl, -⟩ := circle_of_mem_expand hmem
    exact ⟨_, hmem⟩

end Registry

end CallContract
