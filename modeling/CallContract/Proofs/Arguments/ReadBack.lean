import CallContract.Arguments
import CallContract.Proofs.Json.Fields
import CallContract.Proofs.Table
import Mathlib

/-!
# Option values in call arguments are read back

What a put changes is told by addresses : at its own address its value is read
(`Placement.reading_put`), and nothing changes at an address that neither leads to its own nor
is led to by it (`Placement.reading_put_of_apart`), whatever objects and nulls are made on the
way. By induction along a placement whose addresses are all apart, the call arguments hold for
every option the value given for it (`Placement.readOption?_mapOnto`), so that reading them
back gives these values and no other (`Placement.flatten_map`).
-/

namespace CallContract

open Json (Value Fields)

namespace Address

/-- The value at `b` lies within the value at `a`, or is that value. -/
def LeadsTo (a b : Address) : Prop := a.position = b.position ∧ a.keys <+: b.keys

/-- Addresses of which neither leads to the other. -/
def Apart (a b : Address) : Prop := ¬a.LeadsTo b ∧ ¬b.LeadsTo a

theorem Apart.symm {a b : Address} (h : a.Apart b) : b.Apart a := ⟨h.2, h.1⟩

end Address

namespace Arguments

variable {args : Arguments} {i j : Nat} {v : Value}

theorem valueAt_put_self : (args.put i v).valueAt i = v := by
  have hi : i < (args ++ List.replicate (i + 1 - args.length) Value.null).length := by
    simp only [List.length_append, List.length_replicate]
    omega
  rw [valueAt, put, List.getD_eq_getElem?_getD, List.getElem?_set_self hi]
  rfl

/-- The positions that a put fills with null were null before, since nothing was there. -/
theorem valueAt_put_of_ne (h : j ≠ i) : (args.put i v).valueAt j = args.valueAt j := by
  rw [valueAt, put, valueAt, List.getD_eq_getElem?_getD, List.getD_eq_getElem?_getD,
    List.getElem?_set_ne h.symm]
  rcases Nat.lt_or_ge j args.length with hj | hj
  · rw [List.getElem?_append_left hj]
  · rw [List.getElem?_append_right hj, List.getElem?_eq_none hj, List.getElem?_replicate]
    split <;> rfl

end Arguments

namespace Placement

/-- A value that counts : null is none. -/
def held? : Option Value → Option Value
  | some .null => none
  | v => v

theorem given?_eq (values : Fields) (option : String) :
    given? values option = held? (Fields.find? values option) := by
  unfold given? held?
  cases Fields.find? values option with
  | none => rfl
  | some v => cases v <;> rfl

theorem held?_ne_null (v : Option Value) : held? v ≠ some .null := by
  rcases v with _ | v
  · simp [held?]
  · cases v <;> simp [held?]

/-- What is read at an address, null being none. -/
def reading (args : Arguments) (a : Address) : Option Value :=
  held? (below? a.keys (args.valueAt a.position))

theorem below?_null : ∀ keys : List String, held? (below? keys .null) = none
  | [] => rfl
  | _ :: _ => rfl

theorem reading_eq (args : Arguments) (a : Address) : reading args a = held? (read? args a) := by
  rw [reading, read?, Arguments.valueAt, List.getD_eq_getElem?_getD]
  cases args[a.position]? with
  | none => exact below?_null a.keys
  | some v => rfl

theorem readOption?_eq {args : Arguments} {p : Parameter} {a : Address}
    (h : p.path.address? = some a) : readOption? args p = reading args a := by
  rw [reading_eq, readOption?, h]
  simp only [Option.bind_some]
  cases read? args a with
  | none => rfl
  | some v => cases v <;> rfl

/-! ## What one put changes -/

variable {value : Option Value} {last : String} {v w : Value}

theorem below?_asObject {keys : List String} (h : keys ≠ []) (v : Value) :
    below? keys (asObject v) = below? keys v := by
  cases keys with
  | nil => exact absurd rfl h
  | cons k keys => cases v <;> rfl

/-- What was put is found. -/
theorem below?_putBelow : ∀ {keys : List String} {v w u : Value},
    putBelow (some u) last keys v = .ok w → below? (keys ++ [last]) w = some u
  | [], .object fs, w, u, h => by
    obtain rfl : Value.object (Fields.insert fs last u) = w := by simpa [putBelow] using h
    simp [below?]
  | k :: keys, .object fs, w, u, h => by
    rw [putBelow] at h
    cases hput : putBelow (some u) last keys ((Fields.find? fs k).getD (.object [])) with
    | error e => simp [hput] at h
    | ok v =>
      obtain rfl : Value.object (Fields.insert fs k v) = w := by simpa [hput] using h
      rw [List.cons_append, below?, Fields.find?_insert_self]
      exact below?_putBelow hput

/-- A put changes nothing at keys that are not on its way, unless they lie within its value. -/
theorem below?_putBelow_of_not_prefix : ∀ {keys : List String} {v w : Value} {other : List String},
    putBelow value last keys v = .ok w → ¬other <+: keys →
      (value = none ∨ ¬keys ++ [last] <+: other) → below? other w = below? other v
  | keys, _, _, [], _, hup, _ => absurd List.nil_prefix hup
  | [], .object fs, w, l :: other, h, _, hdown => by
    cases hvalue : value with
    | none =>
      obtain rfl : Value.object fs = w := by simpa [putBelow, hvalue] using h
      rfl
    | some u =>
      obtain rfl : Value.object (Fields.insert fs last u) = w := by simpa [putBelow, hvalue] using h
      have hne : l ≠ last := by
        rintro rfl
        exact hdown.resolve_left (by simp [hvalue]) (List.prefix_append [l] other)
      rw [below?, below?, Fields.find?_insert_of_ne u hne]
  | k :: keys, .object fs, w, l :: other, h, hup, hdown => by
    rw [putBelow] at h
    cases hput : putBelow value last keys ((Fields.find? fs k).getD (.object [])) with
    | error e => simp [hput] at h
    | ok v =>
      obtain rfl : Value.object (Fields.insert fs k v) = w := by simpa [hput] using h
      rw [below?, below?]
      by_cases hlk : l = k
      · subst hlk
        have hup' : ¬other <+: keys := fun hp => hup (List.cons_prefix_cons.mpr ⟨rfl, hp⟩)
        have hdown' : value = none ∨ ¬keys ++ [last] <+: other :=
          hdown.imp_right fun hn hp => hn (List.cons_prefix_cons.mpr ⟨rfl, hp⟩)
        rw [Fields.find?_insert_self, Option.bind_some,
          below?_putBelow_of_not_prefix hput hup' hdown']
        -- An object made on the way has nothing below it.
        cases Fields.find? fs l with
        | some u => rfl
        | none =>
          cases other with
          | nil => exact absurd List.nil_prefix hup'
          | cons m other => rfl
      · rw [Fields.find?_insert_of_ne v hlk]

variable {args args' : Arguments} {a b : Address}

/-- What a put can do : it sets an argument as a whole, or changes what is below it. -/
theorem put_cases (h : put args a value = .ok args') :
    (a.keys = [] ∧ value = none ∧ args' = args) ∨
    (a.keys = [] ∧ ∃ v, value = some v ∧ args' = args.put a.position v) ∨
    ∃ keys last w, a.keys = keys ++ [last] ∧
      putBelow value last keys (asObject (args.valueAt a.position)) = .ok w ∧
      args' = args.put a.position w := by
  unfold put at h
  cases hlast : a.keys.getLast? with
  | none =>
    have hnil : a.keys = [] := List.getLast?_eq_none_iff.mp hlast
    cases value with
    | none => exact Or.inl ⟨hnil, rfl, by simpa [hlast] using h.symm⟩
    | some v => exact Or.inr (Or.inl ⟨hnil, v, rfl, by simpa [hlast] using h.symm⟩)
  | some last =>
    obtain ⟨keys, hkeys⟩ := List.getLast?_eq_some_iff.mp hlast
    rw [hkeys] at h hlast
    simp only [hlast, List.dropLast_concat] at h
    cases hput : putBelow value last keys (asObject (args.valueAt a.position)) with
    | error e => simp [hput] at h
    | ok w => exact Or.inr (Or.inr ⟨keys, last, w, hkeys, hput, by simpa [hput] using h.symm⟩)

/-- At its own address a put value is read. -/
theorem reading_put (h : put args a (some v) = .ok args') (hv : v ≠ .null) :
    reading args' a = some v := by
  have hheld : held? (some v) = some v := by cases v <;> first | rfl | exact absurd rfl hv
  rcases put_cases h with ⟨_, hnone, _⟩ | ⟨hnil, u, hu, rfl⟩ | ⟨keys, last, w, hkeys, hput, rfl⟩
  · cases hnone
  · obtain rfl := Option.some.inj hu
    rw [reading, hnil, Arguments.valueAt_put_self]
    exact hheld
  · rw [reading, hkeys, Arguments.valueAt_put_self, below?_putBelow hput]
    exact hheld

/-- Below the argument that a put changes, only keys on its way or within its value change. -/
theorem reading_put_below {keys : List String} (hkeys : a.keys = keys ++ [last])
    (hput : putBelow value last keys (asObject (args.valueAt a.position)) = .ok w)
    (hup : b.position = a.position → ¬b.keys <+: keys) (hdown : value = none ∨ ¬a.LeadsTo b) :
    reading (args.put a.position w) b = reading args b := by
  rw [reading, reading]
  by_cases hpos : b.position = a.position
  · have hnil : b.keys ≠ [] := fun hnil => hup hpos (hnil ▸ List.nil_prefix)
    have hdown' : value = none ∨ ¬keys ++ [last] <+: b.keys :=
      hdown.imp_right fun hn hp => hn ⟨hpos.symm, hkeys ▸ hp⟩
    rw [hpos, Arguments.valueAt_put_self,
      below?_putBelow_of_not_prefix hput (hup hpos) hdown', below?_asObject hnil]
  · rw [Arguments.valueAt_put_of_ne hpos]

/-- A put changes nothing that is read at an address apart from its own. -/
theorem reading_put_of_apart (h : put args a value = .ok args') (hab : a.Apart b) :
    reading args' b = reading args b := by
  rcases put_cases h with ⟨_, _, rfl⟩ | ⟨hnil, u, _, rfl⟩ | ⟨keys, last, w, hkeys, hput, rfl⟩
  · rfl
  · have hpos : b.position ≠ a.position := fun hpos =>
      hab.1 ⟨hpos.symm, hnil ▸ List.nil_prefix⟩
    rw [reading, reading, Arguments.valueAt_put_of_ne hpos]
  · refine reading_put_below hkeys hput (fun hpos hp => hab.2 ⟨hpos, ?_⟩) (Or.inr hab.1)
    exact hkeys ▸ hp.trans (List.prefix_append keys [last])

/-- An option without a value leaves what is read at its address. -/
theorem reading_put_none (h : put args a none = .ok args') : reading args' a = reading args a := by
  rcases put_cases h with ⟨_, _, rfl⟩ | ⟨_, u, hu, _⟩ | ⟨keys, last, w, hkeys, hput, rfl⟩
  · rfl
  · cases hu
  · refine reading_put_below hkeys hput (fun _ hp => ?_) (Or.inl rfl)
    have := hp.length_le
    rw [hkeys, List.length_append, List.length_singleton] at this
    omega

/-! ## What the value of an option is -/

theorem scalar?_ne_null {t : NumericType} {v : Value} : Coercion.scalar? t v ≠ some .null := by
  intro h
  unfold Coercion.scalar? at h
  split at h
  all_goals first
    | cases h
    | obtain ⟨_, _, hn⟩ := Option.map_eq_some_iff.mp h
      cases hn

theorem numeric_ne_null {t : NumericType} {v : Value} : Coercion.numeric t v ≠ .ok .null := by
  intro h
  unfold Coercion.numeric at h
  split at h
  · unfold Except.map at h
    split at h <;> cases h
  · split at h
    · rename_i w hw
      exact scalar?_ne_null (hw.trans (congrArg some (Except.ok.inj h)))
    · simp at h

/-- No coercion makes null of a value. -/
theorem coerced_ne_null {option : String} {p : Parameter}
    (h : coerced option p value = .ok (some w)) (hv : value ≠ some .null) : w ≠ .null := by
  rintro rfl
  unfold coerced at h
  split at h
  · split at h
    · rename_i u hu
      exact numeric_ne_null (hu.trans (congrArg Except.ok (Option.some.inj (Except.ok.inj h))))
    · simp at h
  · exact hv (Except.ok.inj h)

/-- A coercion that succeeds drops no value. -/
theorem exists_of_coerced {option : String} {p : Parameter}
    (h : coerced option p (some v) = .ok value) : ∃ w, value = some w := by
  unfold coerced at h
  split at h
  · split at h
    · exact ⟨_, (Except.ok.inj h).symm⟩
    · simp at h
  · exact ⟨_, (Except.ok.inj h).symm⟩

theorem mapOne_cases {values : Fields} {option : String} {p : Parameter}
    (h : mapOne values args option p = .ok args') :
    ∃ value a, coerced option p (given? values option) = .ok value ∧
      p.path.address? = some a ∧ put args a value = .ok args' := by
  unfold mapOne at h
  simp only at h
  split at h
  · simp at h
  split at h
  · simp at h
  · rename_i value hvalue
    split at h
    · simp at h
    · rename_i a ha
      cases hput : put args a value with
      | error e => simp [hput] at h
      | ok args₁ =>
        obtain rfl : args₁ = args' := by simpa [hput] using h
        exact ⟨value, a, hvalue, ha, hput⟩

/-! ## A whole placement -/

/-- No option of a placement is put where another is, or within it. -/
def Separate (placement : Variables) : Prop :=
  placement.Pairwise fun e f =>
    ∀ a ∈ e.2.path.address?, ∀ b ∈ f.2.path.address?, a.Apart b

variable {values : Fields}

theorem mapOnto_cons {option : String} {p : Parameter} {rest : Variables}
    (h : mapOnto values args ((option, p) :: rest) = .ok args') :
    ∃ args₁, mapOne values args option p = .ok args₁ ∧ mapOnto values args₁ rest = .ok args' := by
  rw [mapOnto] at h
  cases hone : mapOne values args option p with
  | error e => simp [hone] at h
  | ok args₁ => exact ⟨args₁, rfl, by simpa [hone] using h⟩

theorem reading_mapOnto_of_apart : ∀ {placement : Variables} {args args' : Arguments},
    mapOnto values args placement = .ok args' →
      (∀ e ∈ placement, ∀ a ∈ e.2.path.address?, a.Apart b) → reading args' b = reading args b
  | [], _, _, h, _ => by rw [Except.ok.inj h]
  | (option, p) :: rest, args, args', h, hab => by
    obtain ⟨args₁, hone, hrest⟩ := mapOnto_cons h
    obtain ⟨value, a, _, ha, hput⟩ := mapOne_cases hone
    rw [reading_mapOnto_of_apart hrest fun e he => hab e (List.mem_cons_of_mem _ he)]
    exact reading_put_of_apart hput (hab (option, p) List.mem_cons_self a ha)

/-- In the end an option reads what it was given, and what was there before if it was given
nothing. The induction is along the placement : the puts in front of an option leave its
reading alone and so do the puts behind it. -/
theorem readOption?_mapOnto {option : String} {p : Parameter} :
    ∀ {placement : Variables} {args args' : Arguments}, Separate placement →
      mapOnto values args placement = .ok args' → (option, p) ∈ placement →
      ∃ value, coerced option p (given? values option) = .ok value ∧
        readOption? args' p = value.or (readOption? args p)
  | e :: rest, args, args', hsep, h, hmem => by
    obtain ⟨hfirst, hrestSep⟩ := List.pairwise_cons.mp hsep
    obtain ⟨args₁, hone, hrest⟩ := mapOnto_cons h
    obtain ⟨value₁, a, hvalue₁, ha, hput⟩ := mapOne_cases hone
    rcases List.mem_cons.mp hmem with rfl | hmem
    · refine ⟨value₁, hvalue₁, ?_⟩
      rw [readOption?_eq ha, readOption?_eq ha, reading_mapOnto_of_apart hrest fun f hf b hb =>
        (hfirst f hf a ha b hb).symm]
      cases value₁ with
      | none => exact reading_put_none hput
      | some w =>
        have hgiven : given? values option ≠ some .null := by
          rw [given?_eq]
          exact held?_ne_null _
        rw [reading_put hput (coerced_ne_null hvalue₁ hgiven)]
        rfl
    · obtain ⟨value, hvalue, hread⟩ := readOption?_mapOnto hrestSep hrest hmem
      refine ⟨value, hvalue, ?_⟩
      rw [hread]
      congr 1
      cases hb : p.path.address? with
      | none => simp [readOption?, hb]
      | some b =>
        rw [readOption?_eq hb, readOption?_eq hb]
        exact reading_put_of_apart hput (hfirst (option, p) hmem a ha b hb)

theorem readOption?_map {placement : Variables} {option : String} {p : Parameter}
    (hsep : Separate placement) (h : map placement values = .ok args)
    (hmem : (option, p) ∈ placement) :
    coerced option p (given? values option) = .ok (readOption? args p) := by
  obtain ⟨value, hvalue, hread⟩ := readOption?_mapOnto hsep h hmem
  have hnil : readOption? [] p = none := by
    cases ha : p.path.address? with
    | none => simp [readOption?, ha]
    | some a => rw [readOption?_eq ha]; exact below?_null a.keys
  rw [hvalue, hread, hnil, Option.or_none]

theorem find?_flatten {placement : Variables} (hkeys : placement.keys.Nodup) (args : Arguments)
    (option : String) (v : Value) :
    Fields.find? (flatten placement args) option = some v ↔
      ∃ p, (option, p) ∈ placement ∧ readOption? args p = some v := by
  have hnodup : ((placement.filterMap fun e => (readOption? args e.2).map fun v =>
      (e.1, v)).map Prod.fst).Nodup :=
    Table.nodup_filterMap (fun e => readOption? args e.2) hkeys
  rw [flatten, Fields.find?_ofList hnodup, List.mem_filterMap]
  constructor
  · rintro ⟨⟨option', p⟩, hmem, hread⟩
    obtain ⟨u, hu, heq⟩ := Option.map_eq_some_iff.mp hread
    obtain ⟨rfl, rfl⟩ := Prod.mk.inj heq
    exact ⟨p, hmem, hu⟩
  · rintro ⟨p, hmem, hread⟩
    exact ⟨(option, p), hmem, by simp [hread]⟩

/-- What is read back from call arguments are the given values as their types have them : every
option that was given a value other than null has it, and nothing else is there. -/
theorem flatten_map {placement : Variables} (hkeys : placement.keys.Nodup)
    (hsep : Separate placement) (h : map placement values = .ok args) :
    (∀ option v, Fields.find? (flatten placement args) option = some v ↔
      ∃ p, (option, p) ∈ placement ∧ coerced option p (given? values option) = .ok (some v)) ∧
    (∀ option p v, (option, p) ∈ placement → given? values option = some v →
      ∃ w, coerced option p (some v) = .ok (some w)) ∧
    (flatten placement args).Pairwise fun e f => e.1 < f.1 := by
  refine ⟨fun option v => ?_, fun option p v hmem hgiven => ?_, Fields.sorted_ofList _⟩
  · rw [find?_flatten hkeys]
    refine exists_congr fun p => and_congr_right fun hmem => ?_
    rw [readOption?_map hsep h hmem, Except.ok.injEq]
  · have hvalue := readOption?_map hsep h hmem
    rw [hgiven] at hvalue
    obtain ⟨w, hw⟩ := exists_of_coerced hvalue
    exact ⟨w, hw ▸ hvalue⟩

/-- Two options below one argument, of which one is given nothing, and one at a position behind
a gap. -/
theorem flatten_map_two_below_one :
    ∃ (placement : Variables) (values : Fields) (args : Arguments),
      placement.keys.Nodup ∧ Separate placement ∧ map placement values = .ok args ∧
      args = [.object [("a", .string "u"), ("b", .object [])], .null, .number (.integer 5)] ∧
      Fields.find? (flatten placement args) "n" = some (.number (.integer 5)) := by
  let x : Parameter := { name := "x", path := ⟨"0.a"⟩, isOptional := some true }
  let y : Parameter := { name := "y", path := ⟨"0.b.\"c.d\""⟩, isOptional := some true }
  let n : Parameter := { name := "n", path := ⟨"2"⟩, type := some "number" }
  have hkeys : Table.keys [("x", x), ("y", y), ("n", n)] |>.Nodup := by decide
  have hx : x.path.address? = some ⟨0, ["a"]⟩ := by cbv
  have hy : y.path.address? = some ⟨0, ["b", "c.d"]⟩ := by cbv
  have hn : n.path.address? = some ⟨2, []⟩ := by cbv
  have hsep : Separate [("x", x), ("y", y), ("n", n)] := by
    simp [Separate, Address.Apart, Address.LeadsTo, hx, hy, hn]
  have hmap : map [("x", x), ("y", y), ("n", n)] [("n", .string "5"), ("x", .string "u")] =
      .ok [.object [("a", .string "u"), ("b", .object [])], .null, .number (.integer 5)] := by
    cbv
  exact ⟨_, _, _, hkeys, hsep, hmap, rfl,
    ((flatten_map hkeys hsep hmap).1 "n" _).mpr ⟨n, by simp, by cbv⟩⟩

end Placement

end CallContract
