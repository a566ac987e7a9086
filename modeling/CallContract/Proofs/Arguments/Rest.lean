import CallContract.Proofs.Arguments.MappedAgain
import CallContract.Proofs.Arguments.Positions
import CallContract.Proofs.Path.SharedPath
import CallContract.Proofs.Reconciliation.Implied

/-!
# Rest elements

A function binds its rest element to all call arguments from the position of the element on. The
options of the other parameters are put in front of that position, whatever is below them, so what
the rest element is bound to is what its own option puts there (`Placement.restAt_map`). That is one
argument : the value of the option, an array as a whole. So the rest element is bound to an array
with the array in it, and never to the items of the array (`Contract.restAt_map`).
-/

namespace CallContract

open Json (Value Fields)

/-! ## Arguments from a position on -/

namespace Arguments

variable {args : Arguments} {i n : Nat} {v : Value}

/-- What a rest element at a position is bound to : the arguments from there on. -/
def restAt (args : Arguments) (n : Nat) : List Value := args.drop n

theorem restAt_put_of_lt (h : i < n) : (args.put i v).restAt n = args.restAt n := by
  rw [restAt, put, List.drop_set_of_lt h, List.drop_append, restAt, List.drop_replicate]
  have hnone : i + 1 - args.length - (n - args.length) = 0 := by omega
  rw [hnone, List.replicate_zero, List.append_nil]

theorem restAt_put_self (h : args.restAt n = []) : (args.put n v).restAt n = [v] := by
  have hlen : args.length ≤ n := List.drop_eq_nil_iff.mp h
  have hsize : (args.put n v).length = n + 1 := by rw [length_put]; omega
  have hlt : n < (args.put n v).length := by omega
  have hvalue : (args.put n v)[n] = v := by
    rw [← List.getD_eq_getElem _ Value.null hlt]
    exact valueAt_put_self
  rw [restAt, List.drop_eq_getElem_cons hlt, hvalue, List.drop_eq_nil_of_le hsize.le]

end Arguments

namespace Placement

open Arguments (restAt)

variable {values : Fields} {option : String} {p : Parameter} {args args' : Arguments} {n : Nat}

/-- An option that is put in front of a position leaves what is there and behind. -/
theorem restAt_mapOne_of_lt (h : mapOne values args option p = .ok args')
    (hlt : ∀ a ∈ p.path.address?, a.position < n) : args'.restAt n = args.restAt n := by
  obtain ⟨_, a, -, ha, hput⟩ := mapOne_cases h
  obtain ⟨o, -, rfl⟩ := put_eq_ok_iff.mp hput
  cases o with
  | none => rfl
  | some v => exact Arguments.restAt_put_of_lt (hlt a ha)

theorem restAt_mapOnto_of_lt : ∀ {placement : Variables} {args args' : Arguments},
    mapOnto values args placement = .ok args' →
      (∀ e ∈ placement, ∀ a ∈ e.2.path.address?, a.position < n) → args'.restAt n = args.restAt n
  | [], _, _, h, _ => by rw [Except.ok.inj h]
  | e :: placement, _, _, h, hlt => by
    obtain ⟨he, hrest⟩ := List.forall_mem_cons.mp hlt
    obtain ⟨_, hone, hmore⟩ := mapOnto_cons h
    rw [restAt_mapOnto_of_lt hmore hrest, restAt_mapOne_of_lt hone he]

/-- An option that is put at a position as a whole is all that is there, if nothing is behind. -/
theorem restAt_mapOne_self (h : mapOne values args option p = .ok args')
    (ha : p.path.address? = some ⟨n, []⟩) (hnil : args.restAt n = []) :
    ∃ o, coerced option p (given? values option) = .ok o ∧ args'.restAt n = o.toList := by
  obtain ⟨value, a, hvalue, ha', hput⟩ := mapOne_cases h
  obtain rfl : a = ⟨n, []⟩ := Option.some.inj (ha'.symm.trans ha)
  refine ⟨value, hvalue, ?_⟩
  rcases put_cases hput with ⟨-, rfl, rfl⟩ | ⟨-, v, rfl, rfl⟩ | ⟨keys, last, _, hkeys, -⟩
  · exact hnil
  · exact Arguments.restAt_put_self hnil
  · exact absurd hkeys.symm (List.append_ne_nil_of_right_ne_nil _ (List.cons_ne_nil _ _))

/-- The induction is along the options : those in front of the one that is put at the position leave
nothing there, and those behind leave what it puts. -/
theorem restAt_mapOnto (ha : p.path.address? = some ⟨n, []⟩) :
    ∀ {placement : Variables} {args args' : Arguments}, placement.keys.Nodup →
      (option, p) ∈ placement →
      (∀ e ∈ placement, e.1 ≠ option → ∀ a ∈ e.2.path.address?, a.position < n) →
      args.restAt n = [] → mapOnto values args placement = .ok args' →
        ∃ o, coerced option p (given? values option) = .ok o ∧ args'.restAt n = o.toList
  | e :: placement, args, args', hkeys, hmem, hlt, hnil, h => by
    obtain ⟨hfresh, hnodup⟩ := List.nodup_cons.mp hkeys
    obtain ⟨hfirst, hrest⟩ := List.forall_mem_cons.mp hlt
    obtain ⟨_, hone, hmore⟩ := mapOnto_cons h
    rcases List.mem_cons.mp hmem with rfl | hmem
    · obtain ⟨o, ho, hrestAt⟩ := restAt_mapOne_self hone ha hnil
      refine ⟨o, ho, ?_⟩
      rw [restAt_mapOnto_of_lt hmore fun f hf =>
        hrest f hf fun heq => hfresh (List.mem_map.mpr ⟨f, hf, heq⟩), hrestAt]
    · have hne : e.1 ≠ option := fun heq => hfresh (heq ▸ List.mem_map_of_mem hmem)
      refine restAt_mapOnto ha hnodup hmem hrest ?_ hmore
      rw [restAt_mapOne_of_lt hone (hfirst hne), hnil]

/-- An option that is put anywhere has an address. -/
theorem exists_address_of_mapOnto : ∀ {placement : Variables} {args args' : Arguments},
    (option, p) ∈ placement → mapOnto values args placement = .ok args' →
      ∃ a, p.path.address? = some a
  | e :: placement, _, _, hmem, h => by
    obtain ⟨_, hone, hmore⟩ := mapOnto_cons h
    rcases List.mem_cons.mp hmem with rfl | hmem
    · obtain ⟨_, a, -, ha, -⟩ := mapOne_cases hone
      exact ⟨a, ha⟩
    · exact exists_address_of_mapOnto hmem hmore

/-- If all other options are put in front of the position of an option, what is there and behind is
the value of the option, if it has one. -/
theorem restAt_map {placement : Variables} (hkeys : placement.keys.Nodup)
    (hmem : (option, p) ∈ placement) (ha : p.path.address? = some ⟨n, []⟩)
    (hlt : ∀ e ∈ placement, e.1 ≠ option → ∀ a ∈ e.2.path.address?, a.position < n)
    (h : map placement values = .ok args) :
    ∃ o, coerced option p (given? values option) = .ok o ∧ args.restAt n = o.toList :=
  restAt_mapOnto ha hkeys hmem hlt List.drop_nil h

theorem length_numericItems {t : NumericType} {vs ws : List Value}
    (h : Coercion.numericItems t vs = .ok ws) : ws.length = vs.length := by
  induction vs generalizing ws with
  | nil =>
    rw [Coercion.numericItems] at h
    rw [← Except.ok.inj h]
  | cons v vs ih =>
    rw [Coercion.numericItems] at h
    split at h
    · cases h
    split at h
    · cases h
    · rename_i hvs
      rw [← Except.ok.inj h, List.length_cons, List.length_cons, ih hvs]

/-- The items of an array as the type of an option has them. -/
inductive CoercedItems (p : Parameter) (vs : List Value) : List Value → Prop
  | same : p.numericType? = none → CoercedItems p vs vs
  | numeric {t : NumericType} {ws : List Value} : p.numericType? = some t →
    Coercion.numericItems t vs = .ok ws → CoercedItems p vs ws

theorem ne_singleton_array (ws : List Value) : ws ≠ [.array ws] := by
  intro h
  have hsize := congrArg sizeOf h
  simp only [List.cons.sizeOf_spec, List.nil.sizeOf_spec, Value.array.sizeOf_spec] at hsize
  omega

theorem CoercedItems.length_eq {vs ws : List Value} (h : CoercedItems p vs ws) :
    ws.length = vs.length := by
  cases h with
  | same => rfl
  | numeric _ hws => exact length_numericItems hws

theorem exists_items_of_coerced {vs : List Value} {o : Option Value}
    (h : coerced option p (some (.array vs)) = .ok o) :
    ∃ ws, o = some (.array ws) ∧ CoercedItems p vs ws := by
  cases hp : p.numericType? with
  | none =>
    rw [coerced_of_none hp] at h
    exact ⟨vs, (Except.ok.inj h).symm, .same hp⟩
  | some t =>
    obtain ⟨w, rfl⟩ := exists_of_coerced h
    have hw := (coerced_of_some hp).mp h
    rw [Coercion.numeric] at hw
    cases hws : Coercion.numericItems t vs with
    | error e => simp [hws, Except.map] at hw
    | ok ws =>
      rw [hws] at hw
      exact ⟨ws, congrArg some (Except.ok.inj hw).symm, .numeric hp hws⟩

end Placement

/-! ## Variables in front of a rest element -/

theorem ArgPath.eq_of_root_leadsTo_root {i n : Nat} (h : (root i).LeadsTo (root n)) : i = n := by
  rcases h with heq | habove
  · exact root_injective heq
  · obtain ⟨rest, hrest⟩ := isAbove_iff.mp habove
    exact absurd (by rw [hrest]; simp) (point_not_mem_root n)

theorem Pattern.allLeaves_append : ∀ (ps qs : List Pattern) (position : Nat),
    allLeaves position (ps ++ qs) =
      allLeaves position ps ++ allLeaves (position + ps.length) qs
  | [], _, _ => rfl
  | p :: ps, qs, position => by
    rw [List.cons_append, allLeaves, allLeaves, allLeaves_append ps qs, List.append_assoc,
      List.length_cons, Nat.add_right_comm, Nat.add_assoc]

/-- The parameters `front`, and behind them a rest element with a name. -/
def Pattern.withRest (front : List Pattern) (xs : String) : List Pattern :=
  front ++ [.rest (.ident xs)]

/-- The variable of a rest element at a position. -/
structure Parameter.IsRestAt (p : Parameter) (n : Nat) : Prop where
  path : p.path = .root n
  isRest : p.isRest = true
  shape : p.shape = some .array

namespace Variables

open Pattern (withRest)

variable {front : List Pattern} {xs : String} {e : String × Parameter}

theorem sublist_places_ofPatterns (params : List Pattern) :
    (places (ofPatterns params)).Sublist
      (places (Table.ofList ((Pattern.allLeaves 0 params).map fun p => (p.name, p)))) :=
  (sublist_places_foldl (fun _ x => sublist_places_dropFallback x) _ _).trans
    (sublist_places_foldl (fun _ x => sublist_places_dropShared x) _ _)

/-- The last of the names that a list of parameters binds takes the place of others like it. -/
theorem path_of_rest (he : e ∈ ofPatterns (withRest front xs)) (hxs : e.1 = xs) :
    e.2.path = .root front.length := by
  let rest : Parameter := Parameter.asRest { name := xs, path := .root front.length }
  have hleaves : Pattern.allLeaves 0 (withRest front xs) = Pattern.allLeaves 0 front ++ [rest] := by
    rw [withRest, Pattern.allLeaves_append, Nat.zero_add]
    rfl
  have hfind : (Table.ofList ((Pattern.allLeaves 0 (withRest front xs)).map
      fun p => (p.name, p))).find? xs = some rest := by
    rw [hleaves, List.map_append, List.map_singleton, Table.find?_ofList_append_cons]
    exact if_pos rfl
  have hplace := (sublist_places_ofPatterns _).subset (List.mem_map_of_mem (f := fun e =>
    (e.1, e.2.path)) he)
  exact path_of_mem_places (Table.nodup_ofList _) hfind (hxs ▸ hplace)

/-- A rest element never gives way to properties. -/
theorem not_givesWay_of_isRest {r : Registry} {ps : List Parameter} {leaf entry : Parameter}
    (h : leaf.isRest = true) : ¬GivesWay r ps leaf entry :=
  fun hway => Bool.false_ne_true (hway.single.symm.trans h)

theorem rows_resolve_of_isRest {r : Registry} {params : Documented} {leaf : Parameter}
    (hp : Documented.Keyed params) (h : leaf.isRest = true) :
    (resolve r params leaf).rows = [] := by
  rcases resolve_cases (r := r) hp leaf with ⟨-, heq⟩ | ⟨_, -, -, ⟨-, heq⟩ | ⟨hway, -⟩⟩
  · rw [heq]
    rfl
  · rw [heq]
    rfl
  · exact absurd hway (not_givesWay_of_isRest h)

/-- A variable is bound in front of the rest element, or by it. -/
theorem mem_ofPatterns_withRest (he : e ∈ ofPatterns (withRest front xs)) :
    (∃ i < front.length, (ArgPath.root i).LeadsTo e.2.path) ∨
      e.1 = xs ∧ e.2.IsRestAt front.length := by
  obtain ⟨leaf, hmem, hrow⟩ := (explained_ofPatterns _).row e he
  obtain ⟨i, p, hp, hleaf⟩ := Pattern.leaf_of_mem_allLeaves leaf hmem
  rw [Nat.zero_add] at hleaf
  rcases Nat.lt_or_ge i front.length with hi | hi
  · exact Or.inl ⟨i, hi, hrow.path ▸ hleaf.leadsTo⟩
  · rw [withRest, List.getElem?_append_right hi, List.getElem?_singleton] at hp
    split at hp
    · obtain rfl : i = front.length := by omega
      obtain rfl := Option.some.inj hp
      cases hleaf with
      | rest hleaf =>
        cases hleaf
        exact Or.inr ⟨hrow.key, hrow.path, hrow.isRest, hrow.shape⟩
    · cases hp

theorem isRestAt_of_mem (he : e ∈ ofPatterns (withRest front xs)) (hxs : e.1 = xs) :
    e.2.IsRestAt front.length := by
  rcases mem_ofPatterns_withRest he with ⟨i, hi, hleads⟩ | ⟨-, h⟩
  · rw [path_of_rest he hxs] at hleads
    exact absurd (ArgPath.eq_of_root_leadsTo_root hleads) hi.ne
  · exact h

theorem leadsTo_of_ne (he : e ∈ ofPatterns (withRest front xs)) (hxs : e.1 ≠ xs) :
    ∃ i < front.length, (ArgPath.root i).LeadsTo e.2.path :=
  (mem_ofPatterns_withRest he).resolve_right fun h => hxs h.1

end Variables

/-! ## Contracts of functions with a rest element -/

namespace Contract

open Documented (Keyed TypedAt expanded)
open Pattern (withRest)
open Placement (given? coerced CoercedItems)

variable {r : Registry} {doc : Doc} {decl : Declaration} {front : List Pattern} {xs t : String}
  {values : Fields} {args : Arguments}

/-- A rest element whose position is documented stays a variable, of the type that is documented,
and all other rows are in front of it. -/
theorem exists_rest (hparams : decl.params = withRest front xs)
    (hxs : xs ∈ (Variables.ofPatterns decl.params).keys) (hdoc : Keyed doc.params)
    (htyped : TypedAt doc.params (.root front.length) t) :
    ∃ row, (xs, row) ∈ (ofDeclaration r (some doc) decl).1.vars ∧ row.IsRestAt front.length ∧
      row.type = some t ∧ (ofDeclaration r (some doc) decl).1.vars.keys.Nodup ∧
      ∀ e ∈ (ofDeclaration r (some doc) decl).1.vars, e.1 ≠ xs →
        ∃ i < front.length, (ArgPath.root i).LeadsTo e.2.path := by
  have hkeyed := hdoc.expanded (r := r)
  obtain ⟨_, -, hresult, -, -, hnodup⟩ := Variables.exists_added r doc decl
  obtain ⟨leaf, hleaf⟩ := Option.isSome_iff_exists.mp ((Table.mem_keys_iff _ _).mp hxs)
  have hleaf := Table.mem_of_find? hleaf
  obtain ⟨entry, hfind, htype⟩ := htyped
  have hrest : ∀ p, (xs, p) ∈ Variables.ofPatterns decl.params → p.IsRestAt front.length :=
    fun p hp => Variables.isRestAt_of_mem (hparams ▸ hp) rfl
  refine ⟨leaf.merge entry, ?_, ⟨(hrest leaf hleaf).path, (hrest leaf hleaf).isRest, ?_⟩, ?_,
    hnodup, fun e he hne => ?_⟩
  · rw [hresult]
    refine List.mem_append_left _ (Variables.mem_keptRows hleaf ?_)
    refine Variables.resolve_of_documented ?_
      (Variables.not_givesWay_of_isRest (hrest leaf hleaf).isRest)
    rw [(hrest leaf hleaf).path]
    exact Documented.find?_expanded_of_find? hfind
  · rw [(Parameter.filledFrom_merge leaf entry).shape, (hrest leaf hleaf).shape, Option.some_or]
  · rw [(Parameter.filledFrom_merge leaf entry).type, Variables.type_eq_none _ hleaf,
      Option.none_or, htype]
  · obtain ⟨f, hf, hrow⟩ := Variables.exists_of_mem_vars he
    -- the rest element gives way to no rows, and its own has its name
    have hfx : f.1 ≠ xs := fun hfx => by
      rcases hrow with ⟨hkey, -⟩ | hrow
      · exact hne (hkey.symm.trans hfx)
      · rw [Variables.rows_resolve_of_isRest hkeyed (hrest f.2 (hfx ▸ hf)).isRest] at hrow
        cases hrow
    have hall : e.2 ∈ (Variables.resolve r (expanded r doc.params) f.2).all :=
      List.mem_append.mpr (hrow.imp_left fun h => Option.mem_toList.mpr h.2)
    obtain ⟨i, hi, hleads⟩ := Variables.leadsTo_of_ne (hparams ▸ hf) hfx
    exact ⟨i, hi, ArgPath.leadsTo_trans hleads (Variables.leadsTo_of_mem_all hkeyed hall)⟩

/-- What a function binds its rest element to beside a comment that documents it is the value of the
option, if it has one, as one argument. An array that is given is bound within another array, its
items as the type has them. -/
theorem restAt_ofContract (hparams : decl.params = withRest front xs)
    (hxs : xs ∈ (Variables.ofPatterns decl.params).keys) (hdoc : Keyed doc.params)
    (htyped : TypedAt doc.params (.root front.length) t)
    (hmap : Placement.map (OptionSchema.ofContract (ofDeclaration r (some doc) decl).1).placement
      values = .ok args) :
    ∃ row o, (xs, row) ∈ (ofDeclaration r (some doc) decl).1.vars ∧
      row.IsRestAt front.length ∧ row.type = some t ∧
      coerced xs row (given? values xs) = .ok o ∧ args.restAt front.length = o.toList ∧
      ∀ vs, given? values xs = some (.array vs) →
        ∃ ws, o = some (.array ws) ∧ CoercedItems row vs ws ∧ args.restAt front.length ≠ ws := by
  obtain ⟨row, hrow, hrest, htype, hnodup, hfront⟩ := exists_rest (r := r) hparams hxs hdoc htyped
  have hmem : (xs, row) ∈ (OptionSchema.ofContract (ofDeclaration r (some doc) decl).1).placement :=
    List.mem_filter.mpr ⟨hrow, by rw [htype]; rfl⟩
  have hkeys : (OptionSchema.ofContract (ofDeclaration r (some doc) decl).1).placement.keys.Nodup :=
    hnodup.sublist (List.filter_sublist.map Prod.fst)
  obtain ⟨a, ha⟩ := Placement.exists_address_of_mapOnto hmem hmap
  rw [hrest.path] at ha
  obtain ⟨rfl, hsize⟩ := ArgPath.address?_root ha
  rw [← hrest.path] at ha
  have hlt : ∀ e ∈ (OptionSchema.ofContract (ofDeclaration r (some doc) decl).1).placement,
      e.1 ≠ xs → ∀ a ∈ e.2.path.address?, a.position < front.length := fun e he hne a hae => by
    obtain ⟨i, hi, hleads⟩ := hfront e (List.mem_filter.mp he).1 hne
    obtain ⟨keys, hkeys⟩ := ArgPath.address?_of_leadsTo hleads (hi.trans hsize)
    rw [← Option.some.inj (hkeys.symm.trans hae)]
    exact hi
  obtain ⟨o, ho, hrestAt⟩ := Placement.restAt_map hkeys hmem ha hlt hmap
  refine ⟨row, o, hrow, hrest, htype, ho, hrestAt, fun vs hvs => ?_⟩
  rw [hvs] at ho
  obtain ⟨ws, rfl, hws⟩ := Placement.exists_items_of_coerced ho
  exact ⟨ws, rfl, hws, fun heq => Placement.ne_singleton_array ws (heq.symm.trans hrestAt)⟩

/-- A function that takes all its arguments into one variable. -/
def takesAll : Declaration := ⟨"f", [.rest (.ident "xs")], 0, 1, none⟩

/-- A comment that documents the variable as a number. -/
def numberDoc : Doc :=
  { kind := .params, start := 0, stop := 1,
    params := [(⟨"0"⟩, { name := "xs", path := ⟨"0"⟩, type := some "number" })] }

theorem mem_keys_takesAll : "xs" ∈ (Variables.ofPatterns takesAll.params).keys := by
  have hkeys : (Variables.ofPatterns takesAll.params).keys = ["xs"] := by cbv
  exact hkeys ▸ List.mem_cons_self

theorem keyed_numberDoc : Keyed numberDoc.params := ⟨by decide, by simp [numberDoc]⟩

theorem map_takesAll : Placement.map
    (OptionSchema.ofContract (ofDeclaration .empty (some numberDoc) takesAll).1).placement
      [("xs", .array [.string "1", .string "2"])] =
        .ok [.array [.number (.integer 1), .number (.integer 2)]] := by
  cbv

/-- The variable is not bound to the numbers, but to the array of them. -/
theorem restAt_ofContract_takesAll : takesAll.params = withRest [] "xs" ∧
    "xs" ∈ (Variables.ofPatterns takesAll.params).keys ∧ Keyed numberDoc.params ∧
    TypedAt numberDoc.params (.root 0) "number" ∧ ∃ args, Placement.map
      (OptionSchema.ofContract (ofDeclaration .empty (some numberDoc) takesAll).1).placement
        [("xs", .array [.string "1", .string "2"])] = .ok args ∧
      args.restAt 0 = [.array [.number (.integer 1), .number (.integer 2)]] ∧
      args.restAt 0 ≠ [.number (.integer 1), .number (.integer 2)] := by
  have htyped : TypedAt numberDoc.params (.root 0) "number" := ⟨_, rfl, rfl⟩
  have hparams : takesAll.params = withRest [] "xs" := rfl
  obtain ⟨row, o, -, -, -, -, hrestAt, hitems⟩ := restAt_ofContract hparams mem_keys_takesAll
    keyed_numberDoc htyped map_takesAll
  obtain ⟨ws, rfl, -, hne⟩ := hitems [.string "1", .string "2"] rfl
  have hws : [Value.array [.number (.integer 1), .number (.integer 2)]] = [.array ws] := hrestAt
  obtain rfl := Value.array.inj (List.cons.inj hws).1
  exact ⟨hparams, mem_keys_takesAll, keyed_numberDoc, htyped, _, map_takesAll, hrestAt, hne⟩

/-- A rest element is not bound to the items that are given for its option. -/
theorem not_forall_restAt :
    ¬∀ (r : Registry) (doc : Doc) (decl : Declaration) (front : List Pattern) (xs t : String)
      (values : Fields) (args : Arguments) (vs : List Value), decl.params = withRest front xs →
        xs ∈ (Variables.ofPatterns decl.params).keys → Keyed doc.params →
        TypedAt doc.params (.root front.length) t → given? values xs = some (.array vs) →
        vs ≠ [] → Placement.map
          (OptionSchema.ofContract (ofDeclaration r (some doc) decl).1).placement values =
            .ok args →
          ∃ row ws, (xs, row) ∈ (ofDeclaration r (some doc) decl).1.vars ∧
            CoercedItems row vs ws ∧ args.restAt front.length = ws := by
  intro h
  obtain ⟨row, ws, -, hws, heq⟩ := h .empty numberDoc takesAll [] "xs" "number" _ _
    [.string "1", .string "2"] rfl mem_keys_takesAll keyed_numberDoc ⟨_, rfl, rfl⟩ rfl
    (List.cons_ne_nil _ _) map_takesAll
  have hlength := hws.length_eq
  rw [← heq] at hlength
  cases hlength

end Contract

end CallContract
