import CallContract.Proofs.Arguments.Refusal

/-!
# Values that are read back, put again

A value that was coerced is of its type, so it is coerced to itself (`Coercion.numeric_of_ok`,
`Placement.coerced_of_ok`). What is read back from call arguments are the coerced values, and these
are put where the given ones were. But a value counts for a required option as it is given, and a
text that spells zero counts while a zero does not. So the values that are read back make the same
call arguments again unless a required option was given such a text, and then the first such option
lacks a value (`Placement.map_flatten`).
-/

namespace CallContract

open Json (Value Fields)

/-! ## Coerced values -/

namespace Coercion

variable {t : NumericType} {v w : Value}

/-- Something that is no array is coerced to a number, which is a value of the type. -/
theorem scalar?_of_some (h : scalar? t v = some w) :
    (∃ n, w = .number n) ∧ scalar? t w = some w := by
  unfold scalar? at h
  split at h
  · cases h
    exact ⟨⟨_, rfl⟩, rfl⟩
  · obtain ⟨n, -, rfl⟩ := Option.map_eq_some_iff.mp h
    exact ⟨⟨n, rfl⟩, rfl⟩
  · obtain ⟨i, -, rfl⟩ := Option.map_eq_some_iff.mp h
    exact ⟨⟨.integer i, rfl⟩, rfl⟩
  · obtain ⟨i, -, rfl⟩ := Option.map_eq_some_iff.mp h
    exact ⟨⟨.integer i, rfl⟩, rfl⟩
  · cases h

theorem scalar_of_numeric (h : numeric t v = .ok w) (harray : ∀ items, v ≠ .array items) :
    scalar? t v = some w := by
  rw [numeric_of_scalar harray] at h
  cases hscalar : scalar? t v with
  | none =>
    rw [hscalar] at h
    cases h
  | some u =>
    rw [hscalar] at h
    exact congrArg some (Except.ok.inj h)

theorem numeric_of_scalar_ok (h : numeric t v = .ok w) (harray : ∀ items, v ≠ .array items) :
    numeric t w = .ok w := by
  obtain ⟨⟨n, rfl⟩, hw⟩ := scalar?_of_some (scalar_of_numeric h harray)
  have hnumber : ∀ items, Value.number n ≠ .array items := fun _ heq => by cases heq
  rw [numeric_of_scalar hnumber, hw]
  rfl

mutual

/-- A coerced value is coerced to itself. -/
theorem numeric_of_ok : ∀ {v w : Value}, numeric t v = .ok w → numeric t w = .ok w
  | .array items, w, h => by
    rw [numeric] at h
    cases hitems : numericItems t items with
    | error e =>
      rw [hitems] at h
      cases h
    | ok ws =>
      rw [hitems] at h
      obtain rfl : .array ws = w := Except.ok.inj h
      rw [numeric, numericItems_of_ok hitems]
      rfl
  | .null, _, h => numeric_of_scalar_ok h nofun
  | .bool _, _, h => numeric_of_scalar_ok h nofun
  | .number _, _, h => numeric_of_scalar_ok h nofun
  | .string _, _, h => numeric_of_scalar_ok h nofun
  | .object _, _, h => numeric_of_scalar_ok h nofun

theorem numericItems_of_ok : ∀ {vs ws : List Value},
    numericItems t vs = .ok ws → numericItems t ws = .ok ws
  | [], ws, h => by
    rw [numericItems] at h
    cases h
    rw [numericItems]
  | v :: vs, ws, h => by
    rw [numericItems] at h
    cases hv : numeric t v with
    | error e => simp [hv] at h
    | ok u =>
      cases hvs : numericItems t vs with
      | error e => simp [hv, hvs] at h
      | ok us =>
        obtain rfl : u :: us = ws := by simpa [hv, hvs] using h
        rw [numericItems, numeric_of_ok hv, numericItems_of_ok hvs]

end

end Coercion

namespace Placement

variable {values values' : Fields} {args args' : Arguments} {placement : Variables}
  {value value' : Option Value} {v w : Value} {option : String} {p : Parameter}

theorem coerced_of_none (hp : p.numericType? = none) (value : Option Value) :
    coerced option p value = .ok value := by
  unfold coerced
  rw [hp]
  cases value <;> rfl

theorem coerced_of_some {t : NumericType} (hp : p.numericType? = some t) :
    coerced option p (some v) = .ok (some w) ↔ Coercion.numeric t v = .ok w := by
  unfold coerced
  rw [hp]
  cases hv : Coercion.numeric t v <;> simp [hv]

theorem coerced_none (option : String) (p : Parameter) : coerced option p none = .ok none := rfl

/-- The value of an option as its type has it is left as it is. -/
theorem coerced_of_ok (h : coerced option p value = .ok value') :
    coerced option p value' = .ok value' := by
  cases value' with
  | none => exact coerced_none option p
  | some w =>
    cases value with
    | none => cases (coerced_none option p).symm.trans h
    | some v =>
      cases hp : p.numericType? with
      | none => exact coerced_of_none hp _
      | some t =>
        have hw := (coerced_of_some hp).mp h
        exact (coerced_of_some hp).mpr (Coercion.numeric_of_ok hw)

/-! ## Values that count only as they are given -/

/-- Whether an option that has to be there is given a text that spells zero. -/
def givenZero (values : Fields) (e : String × Parameter) : Bool :=
  !e.2.mayBeAbsent &&
    match e.2.numericType?, given? values e.1 with
    | some t, some (.string s) => (Coercion.scalar? t (.string s)).any isFalsy
    | _, _ => false

/-- Only a text counts while what it is coerced to does not. -/
theorem exists_string_of_falsy {t : NumericType} (h : Coercion.numeric t v = .ok w)
    (hv : isFalsy v = false) (hw : isFalsy w = true) : ∃ s, v = .string s := by
  cases v with
  | string s => exact ⟨s, rfl⟩
  | array items =>
    rw [Coercion.numeric] at h
    cases hitems : Coercion.numericItems t items with
    | error e =>
      rw [hitems] at h
      cases h
    | ok ws =>
      rw [hitems] at h
      cases h
      cases hw
  | number n =>
    have hn := Coercion.scalar_of_numeric h nofun
    cases t with
    | number =>
      cases hn
      cases hv.symm.trans hw
    | bigint =>
      obtain ⟨i, hi, rfl⟩ := Option.map_eq_some_iff.mp hn
      cases n with
      | integer j =>
        cases hi
        cases hv.symm.trans hw
      | double x => cases hi
  | null => cases hv
  | bool b => cases t <;> cases Coercion.scalar_of_numeric h nofun
  | object fs => cases t <;> cases Coercion.scalar_of_numeric h nofun

/-- An option that did not lack a value lacks the coerced one exactly if it was given a text that
spells zero. -/
theorem givenZero_iff (hcoerced : coerced option p (given? values option) = .ok value)
    (hgiven : ¬Lacks values (option, p)) :
    givenZero values (option, p) = true ↔ p.mayBeAbsent = false ∧ value.all isFalsy = true := by
  rw [givenZero, Bool.and_eq_true, Bool.not_eq_true']
  refine and_congr_right fun hrequired => ?_
  rw [lacks_iff, not_and, Bool.not_eq_true] at hgiven
  have hcounts := hgiven hrequired
  cases hv : given? values option with
  | none =>
    rw [hv] at hcounts
    cases hcounts
  | some v =>
    rw [hv] at hcoerced hcounts
    obtain ⟨w, rfl⟩ := exists_of_coerced hcoerced
    cases hp : p.numericType? with
    | none =>
      rw [coerced_of_none hp] at hcoerced
      obtain rfl : v = w := by simpa using hcoerced
      simpa using hcounts
    | some t =>
      have hnumeric := (coerced_of_some hp).mp hcoerced
      constructor
      · intro hzero
        cases v with
        | string s => simpa [Coercion.scalar_of_numeric hnumeric nofun] using hzero
        | _ => cases hzero
      · intro hw
        obtain ⟨s, rfl⟩ := exists_string_of_falsy hnumeric hcounts hw
        simpa [Coercion.scalar_of_numeric hnumeric nofun] using hw

/-! ## A whole placement -/

/-- Other values that are coerced to the same make the same call arguments, unless an option lacks
one of them. -/
theorem mapOnto_of_coerced_eq {lacking : String × Parameter → Bool} :
    ∀ {placement : Variables} {args : Arguments},
      (∀ e ∈ placement,
        coerced e.1 e.2 (given? values' e.1) = coerced e.1 e.2 (given? values e.1)) →
      (∀ e ∈ placement, lacking e = true ↔ Lacks values' e) →
      mapOnto values args placement = .ok args' → mapOnto values' args placement =
        match List.find? lacking placement with
        | none => .ok args'
        | some e => .error (.missingRequired e.1)
  | [], args, _, _, h => h
  | e :: placement, args, heq, hlacking, h => by
    obtain ⟨he, hrest⟩ := List.forall_mem_cons.mp heq
    obtain ⟨hlacks, hmore⟩ := List.forall_mem_cons.mp hlacking
    obtain ⟨mid, hone, h⟩ := mapOnto_cons h
    rw [mapOnto, List.find?_cons]
    cases hb : lacking e with
    | true =>
      rw [mapOne_of_refused (.missingRequired (hlacks.mp hb))]
    | false =>
      have hcounts : ¬Lacks values' e := fun hl => by simp [hlacks.mpr hl] at hb
      obtain ⟨-, value, a, hvalue, ha, hput⟩ := mapOne_eq_ok_iff.mp hone
      have hone' : mapOne values' args e.1 e.2 = .ok mid :=
        mapOne_eq_ok_iff.mpr ⟨lacks_iff.not.mp hcounts, value, a, he.trans hvalue, ha, hput⟩
      rw [hone']
      exact mapOnto_of_coerced_eq hrest hmore h

theorem held?_readOption? (args : Arguments) (p : Parameter) :
    held? (readOption? args p) = readOption? args p := by
  unfold readOption?
  split
  · rfl
  · rfl
  · rename_i v hnull _
    cases v <;> first | rfl | exact absurd rfl hnull

theorem find?_flatten_of_mem (hkeys : placement.keys.Nodup) (hmem : (option, p) ∈ placement)
    (args : Arguments) : Fields.find? (flatten placement args) option = readOption? args p := by
  refine Option.ext fun v => (find?_flatten hkeys args option v).trans ⟨?_, fun h => ⟨p, hmem, h⟩⟩
  rintro ⟨q, hq, hread⟩
  have hfind := (Table.find?_eq_some_iff hkeys).mpr hmem
  rw [(Table.find?_eq_some_iff hkeys).mpr hq] at hfind
  rwa [← Option.some.inj hfind]

theorem given?_flatten (hkeys : placement.keys.Nodup) (hmem : (option, p) ∈ placement)
    (args : Arguments) : given? (flatten placement args) option = readOption? args p := by
  rw [given?_eq, find?_flatten_of_mem hkeys hmem, held?_readOption?]

/-- The option values that call arguments hold make the same call arguments again, unless an option
that has to be there was given a text that spells zero : the first such option then lacks a
value. -/
theorem map_flatten (hkeys : placement.keys.Nodup) (hsep : Separate placement)
    (h : map placement values = .ok args) : map placement (flatten placement args) =
      match List.find? (givenZero values) placement with
      | none => .ok args
      | some e => .error (.missingRequired e.1) := by
  have hvalue : ∀ e ∈ placement, coerced e.1 e.2 (given? values e.1) = .ok (readOption? args e.2) :=
    fun e he => readOption?_map hsep h he
  refine mapOnto_of_coerced_eq (fun e he => ?_) (fun e he => ?_) h
  · rw [given?_flatten hkeys he, hvalue e he, coerced_of_ok (hvalue e he)]
  · have hgiven : ¬Lacks values e := fun hl =>
      not_refused_of_mapOnto h e he (.missingRequired hl)
    rw [givenZero_iff (hvalue e he) hgiven, lacks_iff, given?_flatten hkeys he]

/-- A text that starts with a number is read back as the number, which counts if it is not zero. -/
theorem map_flatten_fifth :
    ∃ (placement : Variables) (values : Fields) (args : Arguments),
      placement.keys.Nodup ∧ Separate placement ∧ map placement values = .ok args ∧
      flatten placement args = [("n", .number (.integer 5)), ("x", .array [.number (.integer 0)])] ∧
      map placement (flatten placement args) = .ok args := by
  let x : Parameter :=
    { name := "x", path := ⟨"0.a"⟩, shape := some .array, element := some "bigint" }
  let n : Parameter := { name := "n", path := ⟨"2"⟩, type := some "number" }
  have hkeys : Table.keys [("x", x), ("n", n)] |>.Nodup := by decide
  have hx : x.path.address? = some ⟨0, ["a"]⟩ := by cbv
  have hn : n.path.address? = some ⟨2, []⟩ := by cbv
  have hsep : Separate [("x", x), ("n", n)] := by
    simp [Separate, Address.Apart, Address.LeadsTo, hx, hn]
  have hmap : map [("x", x), ("n", n)] [("n", .string "5th"), ("x", .array [.string "0"])] =
      .ok [.object [("a", .array [.number (.integer 0)])], .null, .number (.integer 5)] := by
    cbv
  have hagain := map_flatten hkeys hsep hmap
  have hnone : List.find? (givenZero [("n", .string "5th"), ("x", .array [.string "0"])])
      [("x", x), ("n", n)] = none := by cbv
  rw [hnone] at hagain
  exact ⟨_, _, _, hkeys, hsep, hmap, by cbv, hagain⟩

/-- A zero that a text was given for is not accepted for a required option. -/
theorem zero_not_accepted_again :
    ¬∀ (placement : Variables) (values : Fields) (args : Arguments), placement.keys.Nodup →
      (∀ e ∈ placement, e.2.path.address?.isSome = true) → Separate placement →
        map placement values = .ok args → map placement (flatten placement args) = .ok args := by
  intro h
  let n : Parameter := { name := "n", path := ⟨"0"⟩, type := some "bigint" }
  have hn : n.path.address? = some ⟨0, []⟩ := by cbv
  have hmap : map [("n", n)] [("n", .string "0")] = .ok [.number (.integer 0)] := by cbv
  have hagain := h [("n", n)] [("n", .string "0")] _ (by decide) (by simp [hn])
    (List.pairwise_singleton _ _) hmap
  have hrefused : map [("n", n)] (flatten [("n", n)] [.number (.integer 0)]) =
      .error (.missingRequired "n") := by cbv
  cases hagain.symm.trans hrefused

end Placement

end CallContract
