import CallContract.Proofs.Arguments.ReadBack
import Mathlib

/-!
# The order of options

Two puts at addresses that are apart can change places: below one argument because they set
different fields, or because what one of them makes on the way is what the other finds there
(`Placement.putBelow_comm`), and for two arguments because a put fills up the positions in front
in the same way (`Arguments.put_put_comm`). So two options that stand next to each other can
change places, and with them all options of a placement (`Placement.map_perm`).
-/

namespace CallContract

open Json (Value Fields)

namespace Arguments

variable {args : Arguments} {i j : Nat} {v w : Value}

theorem length_put (args : Arguments) (i : Nat) (v : Value) :
    (args.put i v).length = max args.length (i + 1) := by
  rw [put, List.length_set, List.length_append, List.length_replicate]
  omega

/-- Arguments are told by how many there are and by the value at each position. -/
theorem eq_of_valueAt {args' : Arguments} (hlen : args.length = args'.length)
    (h : ∀ n, args.valueAt n = args'.valueAt n) : args = args' := by
  refine List.ext_getElem hlen fun n hn hn' => ?_
  have hvalue := h n
  rwa [valueAt, valueAt, List.getD_eq_getElem _ _ hn, List.getD_eq_getElem _ _ hn'] at hvalue

theorem put_put_self (args : Arguments) (i : Nat) (v w : Value) :
    (args.put i v).put i w = args.put i w := by
  refine eq_of_valueAt (by simp only [length_put]; omega) fun n => ?_
  by_cases hn : n = i
  · rw [hn, valueAt_put_self, valueAt_put_self]
  · rw [valueAt_put_of_ne hn, valueAt_put_of_ne hn, valueAt_put_of_ne hn]

/-- Arguments at different positions can be set in either order. -/
theorem put_put_comm (h : i ≠ j) : (args.put i v).put j w = (args.put j w).put i v := by
  refine eq_of_valueAt (by simp only [length_put]; omega) fun n => ?_
  by_cases hi : n = i
  · rw [hi, valueAt_put_of_ne h, valueAt_put_self, valueAt_put_self]
  by_cases hj : n = j
  · rw [hj, valueAt_put_self, valueAt_put_of_ne h.symm, valueAt_put_self]
  · rw [valueAt_put_of_ne hj, valueAt_put_of_ne hi, valueAt_put_of_ne hi, valueAt_put_of_ne hj]

/-- Sets the argument at a position, if there is a value for it. -/
def putAny (args : Arguments) (i : Nat) : Option Value → Arguments
  | none => args
  | some v => args.put i v

theorem valueAt_putAny_of_ne {o : Option Value} (h : j ≠ i) :
    (args.putAny i o).valueAt j = args.valueAt j := by
  cases o with
  | none => rfl
  | some v => exact valueAt_put_of_ne h

theorem putAny_putAny_comm {o o' : Option Value} (h : i ≠ j) :
    (args.putAny i o).putAny j o' = (args.putAny j o').putAny i o := by
  cases o with
  | none => rfl
  | some v =>
    cases o' with
    | none => rfl
    | some w => exact put_put_comm h

end Arguments

namespace Placement

variable {value value' : Option Value} {last last' : String} {v w u : Value}
  {args mid args' : Arguments} {a b : Address}

/-! ## Two puts below one argument -/

/-- Sets a field, if there is a value for it. -/
def setField (fs : Fields) (key : String) : Option Value → Fields
  | none => fs
  | some v => Fields.insert fs key v

/-- The object at a key, which is made if it is not there. -/
def objectAt (fs : Fields) (key : String) : Value := (Fields.find? fs key).getD (.object [])

theorem putBelow_nil : putBelow value last [] v = .ok w ↔
    ∃ fs, v = .object fs ∧ w = .object (setField fs last value) := by
  constructor
  · intro h
    cases v with
    | object fs =>
      refine ⟨fs, rfl, ?_⟩
      cases value <;> simpa [putBelow, setField] using h.symm
    | _ => simp [putBelow] at h
  · rintro ⟨fs, rfl, rfl⟩
    cases value <;> rfl

theorem putBelow_cons {key : String} {keys : List String} :
    putBelow value last (key :: keys) v = .ok w ↔
      ∃ fs u, v = .object fs ∧ putBelow value last keys (objectAt fs key) = .ok u ∧
        w = .object (Fields.insert fs key u) := by
  constructor
  · intro h
    cases v with
    | object fs =>
      rw [putBelow] at h
      cases hput : putBelow value last keys ((Fields.find? fs key).getD (.object [])) with
      | error e => simp [hput] at h
      | ok u => exact ⟨fs, u, rfl, hput, by simpa [hput] using h.symm⟩
    | _ => simp [putBelow] at h
  · rintro ⟨fs, u, rfl, hput, rfl⟩
    rw [putBelow]
    rw [objectAt] at hput
    rw [hput]

/-- A put leaves an object. -/
theorem isObject_of_putBelow {keys : List String} (h : putBelow value last keys v = .ok w) :
    ∃ fs, w = .object fs := by
  cases keys with
  | nil =>
    obtain ⟨fs, _, rfl⟩ := putBelow_nil.mp h
    exact ⟨_, rfl⟩
  | cons k keys =>
    obtain ⟨fs, u, _, _, rfl⟩ := putBelow_cons.mp h
    exact ⟨_, rfl⟩

theorem objectAt_insert_self (fs : Fields) (key : String) :
    objectAt (Fields.insert fs key v) key = v := by
  rw [objectAt, Fields.find?_insert_self]
  rfl

theorem objectAt_insert_of_ne (fs : Fields) {key key' : String} (h : key' ≠ key) :
    objectAt (Fields.insert fs key v) key' = objectAt fs key' := by
  rw [objectAt, Fields.find?_insert_of_ne v h, objectAt]

theorem objectAt_setField_of_ne (fs : Fields) {key key' : String} (h : key' ≠ key) :
    objectAt (setField fs key value) key' = objectAt fs key' := by
  cases value with
  | none => rfl
  | some v => exact objectAt_insert_of_ne fs h

theorem setField_insert_comm (fs : Fields) {key key' : String} (h : key ≠ key') :
    setField (Fields.insert fs key v) key' value =
      Fields.insert (setField fs key' value) key v := by
  cases value with
  | none => rfl
  | some w => exact Fields.insert_insert_comm h v w fs

theorem setField_setField_comm (fs : Fields) {key key' : String} (h : key ≠ key') :
    setField (setField fs key value) key' value' =
      setField (setField fs key' value') key value := by
  cases value with
  | none => rfl
  | some v => exact setField_insert_comm fs h

/-- Two puts below a value, neither of them within the other, can change places. -/
theorem putBelow_comm : ∀ {keys keys' : List String} {v u w : Value},
    ¬keys ++ [last] <+: keys' ++ [last'] → ¬keys' ++ [last'] <+: keys ++ [last] →
      putBelow value last keys v = .ok u → putBelow value' last' keys' u = .ok w →
        ∃ u', putBelow value' last' keys' v = .ok u' ∧ putBelow value last keys u' = .ok w
  | [], [], v, u, w, hab, _, h, h' => by
    obtain ⟨fs, rfl, rfl⟩ := putBelow_nil.mp h
    obtain ⟨_, heq, rfl⟩ := putBelow_nil.mp h'
    obtain rfl := Value.object.inj heq
    have hne : last ≠ last' := fun heq => hab (by rw [heq])
    exact ⟨_, putBelow_nil.mpr ⟨fs, rfl, rfl⟩,
      putBelow_nil.mpr ⟨_, rfl, by rw [setField_setField_comm fs hne]⟩⟩
  | [], k :: keys', v, u, w, hab, _, h, h' => by
    obtain ⟨fs, rfl, rfl⟩ := putBelow_nil.mp h
    obtain ⟨_, x, heq, hput, rfl⟩ := putBelow_cons.mp h'
    obtain rfl := Value.object.inj heq
    have hne : k ≠ last := fun heq => hab (by simp [heq])
    rw [objectAt_setField_of_ne fs hne] at hput
    exact ⟨_, putBelow_cons.mpr ⟨fs, x, rfl, hput, rfl⟩,
      putBelow_nil.mpr ⟨_, rfl, by rw [setField_insert_comm fs hne]⟩⟩
  | k :: keys, [], v, u, w, _, hba, h, h' => by
    obtain ⟨fs, x, rfl, hput, rfl⟩ := putBelow_cons.mp h
    obtain ⟨_, heq, rfl⟩ := putBelow_nil.mp h'
    obtain rfl := Value.object.inj heq
    have hne : k ≠ last' := fun heq => hba (by simp [heq])
    refine ⟨_, putBelow_nil.mpr ⟨fs, rfl, rfl⟩, putBelow_cons.mpr ⟨_, x, rfl, ?_, ?_⟩⟩
    · rwa [objectAt_setField_of_ne fs hne]
    · rw [setField_insert_comm fs hne]
  | k :: keys, k' :: keys', v, u, w, hab, hba, h, h' => by
    obtain ⟨fs, x, rfl, hput, rfl⟩ := putBelow_cons.mp h
    obtain ⟨_, y, heq, hput', rfl⟩ := putBelow_cons.mp h'
    obtain rfl := Value.object.inj heq
    by_cases hkk : k = k'
    · subst hkk
      -- Both go on below the same key.
      rw [objectAt_insert_self] at hput'
      obtain ⟨x', hx', hy⟩ := putBelow_comm
        (fun hp => hab (List.cons_prefix_cons.mpr ⟨rfl, hp⟩))
        (fun hp => hba (List.cons_prefix_cons.mpr ⟨rfl, hp⟩)) hput hput'
      refine ⟨_, putBelow_cons.mpr ⟨fs, x', rfl, hx', rfl⟩, putBelow_cons.mpr ⟨_, y, rfl, ?_, ?_⟩⟩
      · rwa [objectAt_insert_self]
      · rw [Fields.insert_insert_self, Fields.insert_insert_self]
    · rw [objectAt_insert_of_ne fs (Ne.symm hkk)] at hput'
      refine ⟨_, putBelow_cons.mpr ⟨fs, y, rfl, hput', rfl⟩, putBelow_cons.mpr ⟨_, x, rfl, ?_, ?_⟩⟩
      · rwa [objectAt_insert_of_ne fs hkk]
      · rw [Fields.insert_insert_comm hkk]

/-! ## Two puts -/

/-- What the argument at the position of an address is set to by a put, if it is set : the value
itself, or the argument with the value below it. -/
inductive Sets (a : Address) (value : Option Value) (v : Value) : Option Value → Prop
  | whole : a.keys = [] → Sets a value v value
  | below {keys : List String} {last : String} {w : Value} : a.keys = keys ++ [last] →
    putBelow value last keys (asObject v) = .ok w → Sets a value v (some w)

/-- A put reads and sets the argument at one position. -/
theorem put_eq_ok_iff : put args a value = .ok args' ↔
    ∃ o, Sets a value (args.valueAt a.position) o ∧ args' = args.putAny a.position o := by
  constructor
  · intro h
    rcases put_cases h with
      ⟨hnil, rfl, rfl⟩ | ⟨hnil, v, rfl, rfl⟩ | ⟨keys, last, w, hkeys, hput, rfl⟩
    · exact ⟨none, .whole hnil, rfl⟩
    · exact ⟨some v, .whole hnil, rfl⟩
    · exact ⟨some w, .below hkeys hput, rfl⟩
  · rintro ⟨o, ⟨hnil⟩ | ⟨hkeys, hput⟩, rfl⟩
    · unfold put
      rw [hnil]
      cases value <;> rfl
    · unfold put
      rw [hkeys, List.getLast?_concat, List.dropLast_concat]
      simp only [hput]
      rfl

theorem asObject_of_putBelow {keys : List String} (h : putBelow value last keys v = .ok w) :
    asObject w = w := by
  obtain ⟨fs, rfl⟩ := isObject_of_putBelow h
  rfl

/-- Two puts of which neither is within the other can change places. -/
theorem put_comm (hab : a.Apart b) (h : put args a value = .ok mid)
    (h' : put mid b value' = .ok args') :
    ∃ mid', put args b value' = .ok mid' ∧ put mid' a value = .ok args' := by
  obtain ⟨o, ho, rfl⟩ := put_eq_ok_iff.mp h
  obtain ⟨o', ho', rfl⟩ := put_eq_ok_iff.mp h'
  by_cases hpos : a.position = b.position
  · -- Below one argument neither is put as a whole.
    cases ho with
    | whole hnil => exact absurd ⟨hpos, hnil ▸ List.nil_prefix⟩ hab.1
    | @below keys last w hkeys hput =>
      cases ho' with
      | whole hnil => exact absurd ⟨hpos.symm, hnil ▸ List.nil_prefix⟩ hab.2
      | @below keys' last' w' hkeys' hput' =>
        rw [← hpos, Arguments.putAny, Arguments.valueAt_put_self,
          asObject_of_putBelow hput] at hput'
        have hnab : ¬keys ++ [last] <+: keys' ++ [last'] := fun hp =>
          hab.1 ⟨hpos, by rwa [hkeys, hkeys']⟩
        have hnba : ¬keys' ++ [last'] <+: keys ++ [last] := fun hp =>
          hab.2 ⟨hpos.symm, by rwa [hkeys, hkeys']⟩
        obtain ⟨u, hu, hw'⟩ := putBelow_comm hnab hnba hput hput'
        refine ⟨_, put_eq_ok_iff.mpr ⟨some u, .below hkeys' (by rwa [← hpos]), rfl⟩,
          put_eq_ok_iff.mpr ⟨some w', .below hkeys ?_, ?_⟩⟩
        · rwa [← hpos, Arguments.putAny, Arguments.valueAt_put_self, asObject_of_putBelow hu]
        · simp only [Arguments.putAny, ← hpos, Arguments.put_put_self]
  · rw [Arguments.valueAt_putAny_of_ne (Ne.symm hpos)] at ho'
    refine ⟨_, put_eq_ok_iff.mpr ⟨o', ho', rfl⟩, put_eq_ok_iff.mpr ⟨o, ?_, ?_⟩⟩
    · rwa [Arguments.valueAt_putAny_of_ne hpos]
    · rw [Arguments.putAny_putAny_comm hpos]

/-! ## A whole placement -/

variable {values : Fields} {placement placement' : Variables}

theorem mapOne_eq_ok_iff {option : String} {p : Parameter} :
    mapOne values args option p = .ok args' ↔
      ¬(p.mayBeAbsent = false ∧ (given? values option).all isFalsy) ∧
      ∃ value a, coerced option p (given? values option) = .ok value ∧
        p.path.address? = some a ∧ put args a value = .ok args' := by
  constructor
  · intro h
    refine ⟨fun hmissing => ?_, mapOne_cases h⟩
    rw [mapOne] at h
    simp only [hmissing, and_self, if_true] at h
    cases h
  · rintro ⟨hgiven, value, a, hvalue, ha, hput⟩
    rw [mapOne]
    simp only [hgiven, if_false, hvalue, ha, hput]

/-- Two options next to each other can change places. -/
theorem mapOne_comm {e f : String × Parameter}
    (hef : ∀ a ∈ e.2.path.address?, ∀ b ∈ f.2.path.address?, a.Apart b)
    (he : mapOne values args e.1 e.2 = .ok mid) (hf : mapOne values mid f.1 f.2 = .ok args') :
    ∃ mid', mapOne values args f.1 f.2 = .ok mid' ∧ mapOne values mid' e.1 e.2 = .ok args' := by
  obtain ⟨hgiven, value, a, hvalue, ha, hput⟩ := mapOne_eq_ok_iff.mp he
  obtain ⟨hgiven', value', b, hvalue', hb, hput'⟩ := mapOne_eq_ok_iff.mp hf
  obtain ⟨mid', hmid, hargs⟩ := put_comm (hef a ha b hb) hput hput'
  exact ⟨mid', mapOne_eq_ok_iff.mpr ⟨hgiven', value', b, hvalue', hb, hmid⟩,
    mapOne_eq_ok_iff.mpr ⟨hgiven, value, a, hvalue, ha, hargs⟩⟩

theorem mapOnto_cons_eq_ok_iff {e : String × Parameter} :
    mapOnto values args (e :: placement) = .ok args' ↔
      ∃ mid, mapOne values args e.1 e.2 = .ok mid ∧ mapOnto values mid placement = .ok args' := by
  refine ⟨mapOnto_cons, ?_⟩
  rintro ⟨mid, hone, hrest⟩
  rw [mapOnto, hone]
  exact hrest

theorem Separate.perm (hp : placement.Perm placement') (h : Separate placement) :
    Separate placement' :=
  (hp.pairwise_iff fun hef b hb a ha => (hef a ha b hb).symm).mp h

/-- Going through the options in another order ends at the same arguments. The induction is on
how the order comes from the other : only two options that change places are an argument. -/
theorem mapOnto_of_perm (hp : placement.Perm placement') : ∀ {args : Arguments},
    Separate placement → mapOnto values args placement = .ok args' →
      mapOnto values args placement' = .ok args' := by
  induction hp with
  | nil => exact fun _ h => h
  | cons e _ ih =>
    intro args hsep h
    obtain ⟨mid, hone, hrest⟩ := mapOnto_cons_eq_ok_iff.mp h
    exact mapOnto_cons_eq_ok_iff.mpr ⟨mid, hone, ih (List.pairwise_cons.mp hsep).2 hrest⟩
  | swap e f _ =>
    intro args hsep h
    obtain ⟨mid, hf, h⟩ := mapOnto_cons_eq_ok_iff.mp h
    obtain ⟨mid', he, hrest⟩ := mapOnto_cons_eq_ok_iff.mp h
    have hfe := (List.pairwise_cons.mp hsep).1 e List.mem_cons_self
    obtain ⟨mid'', he, hf⟩ := mapOne_comm hfe hf he
    exact mapOnto_cons_eq_ok_iff.mpr ⟨mid'', he, mapOnto_cons_eq_ok_iff.mpr ⟨mid', hf, hrest⟩⟩
  | trans hp _ ih ih' =>
    exact fun hsep h => ih' (hsep.perm hp) (ih hsep h)

/-- In whatever order the options of a placement stand, they are refused together or give the same
call arguments. -/
theorem map_perm (hp : placement.Perm placement') (hsep : Separate placement) (values : Fields)
    (args : Arguments) : map placement values = .ok args ↔ map placement' values = .ok args :=
  ⟨mapOnto_of_perm hp hsep, mapOnto_of_perm hp.symm (hsep.perm hp)⟩

/-- Two options below one argument around one behind a gap, and the same from the last to the
first. -/
theorem map_perm_reversed :
    ∃ placement placement' : Variables, placement.Perm placement' ∧ Separate placement ∧
      map placement' [("n", .string "5"), ("x", .string "u")] =
        .ok [.object [("a", .string "u"), ("b", .object [])], .null, .number (.integer 5)] := by
  let x : Parameter := { name := "x", path := ⟨"0.a"⟩, isOptional := some true }
  let n : Parameter := { name := "n", path := ⟨"2"⟩, type := some "number" }
  let y : Parameter := { name := "y", path := ⟨"0.b.\"c.d\""⟩, isOptional := some true }
  have hx : x.path.address? = some ⟨0, ["a"]⟩ := by cbv
  have hn : n.path.address? = some ⟨2, []⟩ := by cbv
  have hy : y.path.address? = some ⟨0, ["b", "c.d"]⟩ := by cbv
  have hsep : Separate [("x", x), ("n", n), ("y", y)] := by
    simp [Separate, Address.Apart, Address.LeadsTo, hx, hn, hy]
  have hp : [("x", x), ("n", n), ("y", y)].Perm [("y", y), ("n", n), ("x", x)] :=
    (List.reverse_perm _).symm
  exact ⟨_, _, hp, hsep, (map_perm hp hsep _ _).mp (by cbv)⟩

end Placement

end CallContract
