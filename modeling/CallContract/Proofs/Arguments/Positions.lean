import CallContract.OptionSchema
import CallContract.Proofs.Arguments.Crossing
import CallContract.Proofs.Association.Hoisting
import CallContract.Proofs.Path.Pieces
import CallContract.Proofs.Reconciliation.Apart
import CallContract.Proofs.Reconciliation.PropertyByProperty
import CallContract.Proofs.Source.Pattern
import Mathlib

/-!
# Every option of a contract has a position

A parameter takes a token at least, so a text has no more parameters than bytes
(`Source.length_params_of_readModule`), and the position of each is a number that a path can
spell. Every row of a contract has the path of one of the parameters or one below it
(`Contract.exists_leadsTo`), and such a path spells its position (`ArgPath.address?_of_leadsTo`).
So the options of a contract are put at the positions of the parameters. They are refused for a
path only where it goes on behind the path of an option in front, through a value given for that
(`Source.mapped_of_extract`). A function may bind a property and what is below it, so this happens
(`Source.property_and_below`).
-/

namespace CallContract

open Json (Value Fields)

-- Powers of numbers are the built-in ones, whatever else is imported.
attribute [local instance (high)] instPowNat

/-! ## Parameters and bytes -/

namespace Source

variable {text : List Char}

theorem length_le_of_readParameters {ts : List Token} {ps : List Pattern} {n : Nat}
    (h : readParameters text ts = .ok (ps, n)) : ps.length ≤ ts.length := by
  fun_induction readParameters text ts generalizing ps n with
  | case2 t r _ =>
    obtain ⟨rfl, -⟩ := Prod.mk.inj (Except.ok.inj h)
    exact Nat.zero_le _
  | case6 t r _ p _ _ u s _ _ hlen qs _ hqs ih =>
    obtain ⟨rfl, -⟩ := Prod.mk.inj (Except.ok.inj h)
    have := ih hqs
    simp only [List.length_cons]
    omega
  | case7 t r =>
    obtain ⟨rfl, -⟩ := Prod.mk.inj (Except.ok.inj h)
    simp
  | case1 => cases h
  | case3 => cases h
  | case4 => cases h
  | case5 => cases h
  | case8 => cases h

/-- A parameter takes a token at least, apart from a single name in front of an arrow. -/
theorem ReadOff.length_le {ts : List Token} {ps : List Pattern} (h : ReadOff text ts ps) :
    ps.length ≤ ts.length + 1 := by
  rcases h with ⟨x, rfl⟩ | ⟨k, n, h⟩
  · simp
  · unfold readParameterList at h
    split at h
    · cases h
    · rename_i t r hdrop
      split at h
      · obtain ⟨⟨qs, m⟩, hqs, heq⟩ := eq_ok_of_map_eq h
        obtain ⟨rfl, -⟩ := Prod.mk.inj heq
        have hlen := congrArg List.length hdrop
        rw [List.length_drop, List.length_cons] at hlen
        exact (length_le_of_readParameters hqs).trans (by omega)
      · cases h

/-- Every token takes a byte at least. -/
theorem Laid.length_tokens_le {pos : Nat} {broken : Bool} {s : List Char} {ps : List Piece}
    (h : Laid pos broken s ps) : (ps.filterMap Piece.token?).length ≤ width s := by
  induction h with
  | nil => simp
  | gap _ _ ih =>
    rw [width_cons]
    omega
  | token hs _ _ _ ih =>
    have := hs.width_pos
    simp only [Piece.token?, List.filterMap_cons, List.length_cons, width_append]
    omega
  | comment _ _ _ ih =>
    simp only [Piece.token?, List.filterMap_cons, width_append]
    omega

/-- A function has no more parameters than its text has bytes, and one. -/
theorem length_params_of_readModule {source : List Char} {file : File}
    (h : readModule source = .ok file) :
    ∀ d ∈ file.declarations, d.params.length ≤ width source + 1 := by
  obtain ⟨l, _, hl, -⟩ := declarations_of_readModule h
  obtain ⟨ps, hlaid, htokens, -⟩ := laid_of_tokenize hl
  intro d hd
  have hparams := (ReadOff.of_readModule h hl d hd).length_le
  have := hlaid.length_tokens_le
  rw [← htokens] at this
  omega

end Source

/-! ## Paths of rows -/

namespace Text

theorem unsigned?_toDigits_eq (i limit : Nat) :
    unsigned? 10 limit (Nat.toDigits 10 i) = if i < limit then some i else none := by
  obtain ⟨hne, hdigits⟩ := isDigits_toDigits i
  have hnatural : natural? 10 (Nat.toDigits 10 i) = some i := by
    rw [natural?_of_isDigits ⟨hne, hdigits⟩, Nat.ofDigitChars_ten_toDigits]
  unfold unsigned?
  split
  · rename_i r hr
    have := hdigits '+' (hr ▸ List.mem_cons_self)
    cases this
  · simp [hnatural, Option.filter]

/-- A number is read off its digits. -/
theorem unsigned?_toDigits {i limit : Nat} (h : i < limit) :
    unsigned? 10 limit (Nat.toDigits 10 i) = some i := by
  rw [unsigned?_toDigits_eq, if_pos h]

theorem eq_of_unsigned?_toDigits {i j limit : Nat}
    (h : unsigned? 10 limit (Nat.toDigits 10 i) = some j) : i = j ∧ i < limit := by
  rw [unsigned?_toDigits_eq] at h
  split at h
  · exact ⟨Option.some.inj h, ‹_›⟩
  · cases h

end Text

namespace ArgPath

theorem isDigit_of_mem_root {i : Nat} : ∀ c ∈ (root i).text.toList, c.isDigit = true := by
  rw [toList_root]
  exact (isDigits_toDigits i).2

theorem key_root (i : Nat) : key (root i).text.toList = String.ofList (Nat.toDigits 10 i) := by
  rw [key, if_neg, toList_root]
  rintro ⟨-, hhead, -⟩
  cases isDigit_of_mem_root _ (List.mem_of_mem_head? hhead)

/-- A path that leads on from an argument spells its position. -/
theorem address?_of_leadsTo {i : Nat} {p : ArgPath} (h : (root i).LeadsTo p) (hi : i < 2 ^ 64) :
    ∃ keys, p.address? = some ⟨i, keys⟩ := by
  have hquoted : quotedAfter false (root i).text.toList = false := by
    rw [quotedAfter_false_iff, List.count_eq_zero.mpr fun hq => by cases isDigit_of_mem_root _ hq]
  have hwhole := whole_of_not_mem (point_not_mem_root i) false
  have hpieces : ∃ ps, pointPieces false p.text.toList = (root i).text.toList :: ps := by
    obtain ⟨rest, hp, rfl | ⟨more, rfl⟩⟩ := leadsTo_iff.mp h
    · exact ⟨[], by rw [hp, List.append_nil]; exact hwhole⟩
    · exact ⟨_, by rw [hp, pointPieces_of_closed more hwhole hquoted]⟩
  obtain ⟨ps, hpieces⟩ := hpieces
  refine ⟨ps.map key, ?_⟩
  simp only [address?, segments, hpieces, List.map_cons, key_root, String.toList_ofList,
    Text.unsigned?_toDigits hi, Option.map_some]

/-- A path that is an argument itself has an address only if its position can be spelled. -/
theorem address?_root {i : Nat} {a : Address} (h : (root i).address? = some a) :
    a = ⟨i, []⟩ ∧ i < 2 ^ 64 := by
  have hpieces : pointPieces false (root i).text.toList = [(root i).text.toList] :=
    whole_of_not_mem (point_not_mem_root i) false
  simp only [address?, segments, hpieces, List.map_cons, List.map_nil, key_root,
    String.toList_ofList] at h
  obtain ⟨j, hj, rfl⟩ := Option.map_eq_some_iff.mp h
  obtain ⟨rfl, hlt⟩ := Text.eq_of_unsigned?_toDigits hj
  exact ⟨rfl, hlt⟩

end ArgPath

/-- Every row has the path of a variable or one below it. -/
theorem Variables.exists_leadsTo {function : String} {r : Registry} {vars : Variables}
    {doc : Option Doc} (hdoc : ∀ d ∈ doc, Documented.Keyed d.params) :
    ∀ e ∈ (vars.reconcile function doc r).1, ∃ f ∈ vars, f.2.path.LeadsTo e.2.path := by
  intro e he
  cases doc with
  | none => exact ⟨e, he, Or.inl rfl⟩
  | some d =>
    have hp := (hdoc d rfl).expanded (r := r)
    have hrow := (values_addRows_sublist function _ _).subset (List.mem_map_of_mem he)
    rw [← keptRows, ← (rows_perm r _ vars).mem_iff] at hrow
    obtain ⟨f, hf, hrow⟩ := List.mem_flatMap.mp hrow
    exact ⟨f, hf, leadsTo_of_mem_all hp hrow⟩

/-- Every row of a contract has the path of one of the parameters or one below it. -/
theorem Contract.exists_leadsTo {r : Registry} {doc : Option Doc} {decl : Declaration}
    (hdoc : ∀ d ∈ doc, Documented.Keyed d.params) :
    ∀ e ∈ (ofDeclaration r doc decl).1.vars,
      ∃ i < decl.params.length, (ArgPath.root i).LeadsTo e.2.path := by
  intro e he
  obtain ⟨f, hf, hfe⟩ := Variables.exists_leadsTo hdoc e he
  have hstable : Variables.Stable fun p =>
      ∃ i < decl.params.length, (ArgPath.root i).LeadsTo p.path :=
    ⟨fun _ _ h => h, fun _ _ h _ => h⟩
  have hleaves : ∀ leaf ∈ Pattern.allLeaves 0 decl.params,
      ∃ i < decl.params.length, (ArgPath.root i).LeadsTo leaf.path := fun leaf hmem => by
    obtain ⟨i, p, hp, hleaf⟩ := Pattern.leaf_of_mem_allLeaves leaf hmem
    rw [Nat.zero_add] at hleaf
    exact ⟨i, (List.getElem?_eq_some_iff.mp hp).1, hleaf.leadsTo⟩
  have hvars := Variables.forall_ofPatterns hstable hleaves
  obtain ⟨i, hi, hroot⟩ := hvars f hf
  exact ⟨i, hi, ArgPath.leadsTo_trans hroot hfe⟩

/-! ## Contracts of source texts -/

namespace Source

/-- The options of the contract of a declaration are put at the positions of its parameters. -/
theorem position_of_mem_placement {file : File} {source : List Char}
    (h : readModule source = .ok file) (hsize : width source < 2 ^ 64) {r : Registry}
    {decl : Declaration} (hdecl : decl ∈ file.declarations) :
    ∀ e ∈ (OptionSchema.ofContract (Contract.ofDeclaration r
        (Association.attached? (Extraction.docsOf file.comments) decl) decl).1).placement,
      ∃ a, e.2.path.address? = some a ∧ a.position < decl.params.length := by
  intro e he
  have hdoc : ∀ d ∈ Association.attached? (Extraction.docsOf file.comments) decl,
      Documented.Keyed d.params := fun d hd => by
    have hlast := (Option.mem_filter_iff.mp hd).1
    have hdocs := (List.takeWhile_prefix _).subset (List.mem_of_getLast? hlast)
    obtain ⟨c, -, hc⟩ := List.mem_filterMap.mp hdocs
    exact Doc.keyed_params hc
  obtain ⟨i, hi, hroot⟩ := Contract.exists_leadsTo hdoc e (List.mem_filter.mp he).1
  have hlength := length_params_of_readModule h decl hdecl
  obtain ⟨keys, hkeys⟩ := ArgPath.address?_of_leadsTo hroot (by omega)
  exact ⟨_, hkeys, hi⟩

/-- The options of each contract of a text that fits into 64 bits give no more call arguments than
the function has parameters, or are refused for their own values, or because the path of one goes
through the value of one in front. -/
theorem mapped_of_extract {source : String} {file : File}
    (h : readModule source.toList = .ok file) (hsize : width source.toList < 2 ^ 64)
    (hoist : Bool) (r : Registry) : ∃ x, extract hoist r source = .ok x ∧
      List.Forall₂ (fun decl c => ∀ values,
        (∃ args, Placement.map (OptionSchema.ofContract c).placement values = .ok args ∧
          args.length ≤ decl.params.length) ∨
        ∃ e, Placement.map (OptionSchema.ofContract c).placement values = .error e ∧
          Placement.Fault values (OptionSchema.ofContract c).placement e ∧
          ∀ path, e ≠ .noPosition path) file.declarations x.contracts := by
  refine ⟨_, by rw [extract, h]; rfl, ?_⟩
  rw [contracts_of_readModule h, List.forall₂_map_right_iff, List.forall₂_same]
  intro decl hdecl values
  have hposition := position_of_mem_placement h hsize hdecl
    (r := Extraction.registryAt hoist r file.comments decl)
  generalize (OptionSchema.ofContract _).placement = placement at hposition ⊢
  cases hmap : Placement.map placement values with
  | ok args =>
    refine Or.inl ⟨args, rfl, Placement.length_of_map (fun e he a ha => ?_) hmap⟩
    obtain ⟨b, hb, hlt⟩ := hposition e he
    exact Option.some.inj (hb.symm.trans ha) ▸ hlt
  | error e =>
    have hfault := Placement.fault_of_map hmap
    refine Or.inr ⟨e, rfl, hfault, ?_⟩
    rintro path rfl
    cases hfault with
    | noPosition he hnone =>
      obtain ⟨b, hb, -⟩ := hposition _ he
      cases hb.symm.trans hnone

/-- A function that binds a property and what is below it, both documented as texts. -/
def propertyText : String :=
  "/** @param \x7bobject\x7d o\n@param \x7bstring\x7d [o.a]\n@param \x7bstring\x7d [o.a.b] */\n" ++
    "function f(\x7ba, a: \x7bb\x7d\x7d) \x7b\x7d"

/-- Its options fit into one argument, if they fit at all. -/
theorem mapped_of_extract_propertyText : ∃ file x, readModule propertyText.toList = .ok file ∧
    width propertyText.toList < 2 ^ 64 ∧ extract false .empty propertyText = .ok x ∧
    x.contracts.map (fun c => (OptionSchema.ofContract c).placement.keys) = [["a", "b"]] ∧
    ∀ c ∈ x.contracts, ∀ values args,
      Placement.map (OptionSchema.ofContract c).placement values = .ok args → args.length ≤ 1 := by
  have hparams : (readModule propertyText.toList).map (fun file =>
      file.declarations.map fun d => d.params.length) = .ok [1] := by cbv
  have hkeys : (extract false .empty propertyText).map (fun x =>
      x.contracts.map fun c => (OptionSchema.ofContract c).placement.keys) =
      .ok [["a", "b"]] := by cbv
  obtain ⟨file, h, hparams⟩ := eq_ok_of_map_eq hparams
  have hsize : width propertyText.toList < 2 ^ 64 := by decide +kernel
  obtain ⟨x, hx, hmapped⟩ := mapped_of_extract h hsize false .empty
  rw [hx] at hkeys
  refine ⟨file, x, h, hsize, hx, Except.ok.inj hkeys, fun c hc values args hmap => ?_⟩
  obtain ⟨decl, hdecls, hlength⟩ := List.map_eq_singleton_iff.mp hparams
  rw [hdecls, List.forall₂_cons_left_iff] at hmapped
  obtain ⟨c', _, hvalues, hnil, hcs⟩ := hmapped
  rw [hcs, List.forall₂_nil_left_iff.mp hnil, List.mem_singleton] at hc
  subst hc
  rcases hvalues values with ⟨args', hargs, hle⟩ | ⟨e, herror, -⟩
  · rw [hmap] at hargs
    rwa [Except.ok.inj hargs, ← hlength]
  · cases hmap.symm.trans herror

/-- A value for the property that is no object stands in the way of what is below it. -/
theorem property_and_below :
    ¬∀ (source : String) (hoist : Bool) (r : Registry) (x : Extraction),
      extract hoist r source = .ok x → ∀ c ∈ x.contracts, ∀ values,
        (∃ args, Placement.map (OptionSchema.ofContract c).placement values = .ok args) ∨
        (∃ option, Placement.map (OptionSchema.ofContract c).placement values =
          .error (.missingRequired option)) ∨
        ∃ option t v, Placement.map (OptionSchema.ofContract c).placement values =
          .error (.typeMismatch option t v) := by
  intro h
  have hrun : (extract false .empty propertyText).map (fun x => x.contracts.map fun c =>
      Placement.map (OptionSchema.ofContract c).placement [("a", .string "v")]) =
      .ok [.error (.throughValue ⟨"0.a.b"⟩ "b")] := by cbv
  obtain ⟨x, hx, hmaps⟩ := eq_ok_of_map_eq hrun
  obtain ⟨c, hc, hmap⟩ := List.mem_map.mp (hmaps ▸ List.mem_singleton_self _)
  rcases h propertyText false .empty x hx c hc [("a", .string "v")] with
    ⟨_, heq⟩ | ⟨_, heq⟩ | ⟨_, _, _, heq⟩
  all_goals cases hmap.symm.trans heq

end Source

end CallContract
