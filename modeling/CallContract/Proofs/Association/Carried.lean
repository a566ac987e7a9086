import CallContract.Proofs.Association.Places

/-!
# The cursor carried from declaration to declaration

Declarations come up one after another, each beside the comments that are known by then
(`Association.InTurn`), and the search goes through them with one cursor (`Association.carried`).
What the cursor has passed stops before the declaration in front, hence before the next one, and
would be passed again from the start. So the cursor changes no result, and of comments that stop
in order each search finds the last one that stops before the declaration does, if it may document
it (`Association.carried_eq_alone`).

`Extraction.fromDeclarations` is such a run : its contracts are made of what searches of their own
find (`Extraction.contracts_eq_alone`).
-/

namespace CallContract

namespace Association

variable {docs : List Doc} {decl : Declaration}

/-- The places that the search finds for declarations, each beside the comments that are known when
it comes up, with the cursor carried from one to the next. -/
def carried (cursor : Option Nat) : List (List Doc × Declaration) → List (Option Nat)
  | [] => []
  | (docs, decl) :: turns =>
    let found := find docs decl cursor
    found.doc :: carried found.cursor turns

/-- Declarations that stop in order, where comments are only added behind those that are known. -/
def InTurn (turns : List (List Doc × Declaration)) : Prop :=
  turns.Pairwise fun s t => s.1 <+: t.1 ∧ s.2.stop ≤ t.2.stop

/-- A search of its own finds the place of the attached comment. -/
theorem doc_find_none (docs : List Doc) (decl : Declaration) :
    (find docs decl none).doc = place? docs decl :=
  doc_find_lastOf (n := 0) (Nat.zero_le _)

/-- The induction is on the turns. Whatever has been passed stops before each declaration that is
still to come. -/
theorem carried_lastOf : ∀ {turns : List (List Doc × Declaration)} {n : Nat}, InTurn turns →
    (∀ t ∈ turns, n ≤ (before t.1 t.2.stop).length) →
      carried (lastOf n) turns = turns.map fun t => place? t.1 t.2
  | [], _, _, _ => rfl
  | (docs, decl) :: turns, n, h, hn => by
    obtain ⟨hfirst, hlater⟩ := List.pairwise_cons.mp h
    have hpassed := hn (docs, decl) List.mem_cons_self
    have hnext : ∀ t ∈ turns, (before docs decl.stop).length ≤ (before t.1 t.2.stop).length := by
      intro t ht
      obtain ⟨⟨more, hmore⟩, hstop⟩ := hfirst t ht
      rw [← hmore]
      exact length_before_le more hstop
    rw [carried, (find_lastOf docs decl hpassed).1, doc_find_lastOf hpassed,
      carried_lastOf hlater hnext]
    rfl

/-! ## Comments that stop in order -/

/-- Of comments that stop in order, those that stop before an offset are the first ones. -/
theorem lt_length_before_iff {stop j : Nat} {e : Doc}
    (h : docs.Pairwise fun d e => d.stop ≤ e.stop) (he : docs[j]? = some e) :
    e.stop < stop ↔ j < (before docs stop).length := by
  induction docs generalizing j with
  | nil => cases he
  | cons d docs ih =>
    obtain ⟨hd, hdocs⟩ := List.pairwise_cons.mp h
    by_cases hlt : d.stop < stop
    · have hcons : before (d :: docs) stop = d :: before docs stop :=
        List.takeWhile_cons_of_pos (decide_eq_true hlt)
      rw [hcons, List.length_cons]
      cases j with
      | zero =>
        obtain rfl := Option.some.inj he
        exact iff_of_true hlt (Nat.succ_pos _)
      | succ j =>
        rw [Nat.succ_lt_succ_iff]
        exact ih hdocs he
    · have hcons : before (d :: docs) stop = [] :=
        List.takeWhile_cons_of_neg (by simpa using hlt)
      rw [hcons]
      refine iff_of_false (fun hstop => hlt ?_) (Nat.not_lt_zero j)
      cases j with
      | zero =>
        obtain rfl := Option.some.inj he
        exact hstop
      | succ j => exact (hd e (List.mem_of_getElem? he)).trans_lt hstop

/-- The last comment that stops before a declaration does, and that may document it. -/
structure LastBefore (docs : List Doc) (decl : Declaration) (i : Nat) (d : Doc) : Prop where
  here : docs[i]? = some d
  stop_lt : d.stop < decl.stop
  last : ∀ j e, docs[j]? = some e → e.stop < decl.stop → j ≤ i
  behind : ∀ p ∈ decl.previousStop, p ≤ d.start
  kind : d.kind ≠ .namedType

theorem LastBefore.length_before (ho : docs.Pairwise fun d e => d.stop ≤ e.stop) {i : Nat} {d : Doc}
    (h : LastBefore docs decl i d) : (before docs decl.stop).length = i + 1 := by
  have hi := (lt_length_before_iff ho h.here).mp h.stop_lt
  by_contra hne
  have hle : (before docs decl.stop).length ≤ docs.length :=
    (List.takeWhile_prefix _).length_le
  have hnext : docs[i + 1]? = some docs[i + 1] := List.getElem?_eq_getElem (by omega)
  have hlast := h.last (i + 1) _ hnext ((lt_length_before_iff ho hnext).mpr (by omega))
  omega

theorem place?_eq_some_iff (ho : docs.Pairwise fun d e => d.stop ≤ e.stop) {i : Nat} :
    place? docs decl = some i ↔ ∃ d, LastBefore docs decl i d := by
  constructor
  · intro h
    obtain ⟨d, hd, -, hstop, hbehind, hkind⟩ := exists_of_place? h
    refine ⟨d, hd, hstop, fun j e he hlt => ?_, hbehind, hkind⟩
    have hj := (lt_length_before_iff ho he).mp hlt
    unfold place? at h
    split at h
    · cases hlength : (before docs decl.stop).length with
      | zero => omega
      | succ n =>
        rw [hlength] at h hj
        obtain rfl : n = i := Option.some.inj h
        exact Nat.le_of_lt_succ hj
    · cases h
  · rintro ⟨d, h⟩
    have hlength := h.length_before ho
    have hlast : (before docs decl.stop).getLast? = some d := by
      rw [before] at hlength
      rw [before, getLast?_takeWhile, hlength]
      exact h.here
    have haccepts : accepts decl d = true := by
      rw [accepts, Bool.and_eq_true]
      refine ⟨?_, by simpa using h.kind⟩
      cases hp : decl.previousStop with
      | none => rfl
      | some p => exact decide_eq_true (h.behind p hp)
    rw [place?, attached?, hlast, Option.filter_some_pos haccepts, hlength]
    rfl

/-! ## Searches of their own -/

/-- With the cursor carried along, each declaration gets the comment that a search of its own finds
among the comments known by then. Of comments that stop in order that is the last one that stops
before the declaration does, if it starts no earlier than the statement in front stops and names no
type, and there is none otherwise. -/
theorem carried_eq_alone {turns : List (List Doc × Declaration)} (h : InTurn turns) :
    (carried none turns = turns.map fun t => (find t.1 t.2 none).doc) ∧
    ∀ t ∈ turns, (t.1.Pairwise fun d e => d.stop ≤ e.stop) →
      ∀ i, (find t.1 t.2 none).doc = some i ↔ ∃ d, LastBefore t.1 t.2 i d := by
  constructor
  · have hcarried := carried_lastOf (n := 0) h fun _ _ => Nat.zero_le _
    rw [List.map_congr_left fun t _ => doc_find_none t.1 t.2]
    exact hcarried
  · intro t _ ho i
    rw [doc_find_none]
    exact place?_eq_some_iff ho

/-- A second comment is added behind the first declaration, and one that names a type behind the
second. -/
theorem carried_eq_alone_added : ∃ turns : List (List Doc × Declaration), InTurn turns ∧
    carried none turns = [some 0, some 1, none] ∧
    (turns.map fun t => (find t.1 t.2 none).doc) = [some 0, some 1, none] ∧
    ∃ t ∈ turns, ∃ d, LastBefore t.1 t.2 1 d := by
  let first : Doc := { kind := .description, start := 0, stop := 5 }
  let second : Doc := { kind := .params, start := 20, stop := 25 }
  let third : Doc := { kind := .namedType, start := 40, stop := 45 }
  let turns : List (List Doc × Declaration) :=
    [([first], ⟨"f", [], 6, 18, none⟩), ([first, second], ⟨"g", [], 26, 38, some 18⟩),
      ([first, second, third], ⟨"h", [], 46, 58, some 38⟩)]
  have hturns : InTurn turns := by
    simp [InTurn, turns]
  have hcarried : carried none turns = [some 0, some 1, none] := by rfl
  obtain ⟨heq, hlast⟩ := carried_eq_alone hturns
  have hmem : ([first, second], ⟨"g", [], 26, 38, some 18⟩) ∈ turns :=
    List.mem_cons_of_mem _ List.mem_cons_self
  have hfound := (hlast _ hmem (by simp [first, second]) 1).mp (by rfl)
  exact ⟨turns, hturns, hcarried, heq ▸ hcarried, _, hmem, hfound⟩

end Association

/-! ## The run of an extraction -/

namespace Extraction

open Association (carried InTurn find)

/-- The declarations that `fromDeclarations` goes through, each beside the documentation comments
that are known when it comes up. -/
def turns (docs : List Doc) (pending : List Source.Comment) :
    List Declaration → List (List Doc × Declaration)
  | [] => []
  | decl :: decls =>
    let near := pending.takeWhile fun c => c.start < decl.stop
    (docs ++ docsOf near, decl) :: turns (docs ++ docsOf near) (pending.drop near.length) decls

theorem prefix_of_mem_turns : ∀ {decls : List Declaration} {docs : List Doc}
    {pending : List Source.Comment}, ∀ t ∈ turns docs pending decls, docs <+: t.1 ∧ t.2 ∈ decls
  | decl :: decls, docs, pending, t, h => by
    rw [turns, List.mem_cons] at h
    rcases h with rfl | h
    · exact ⟨List.prefix_append _ _, List.mem_cons_self⟩
    · obtain ⟨hgrown, hmem⟩ := prefix_of_mem_turns t h
      exact ⟨(List.prefix_append _ _).trans hgrown, List.mem_cons_of_mem _ hmem⟩

theorem inTurn_turns : ∀ {decls : List Declaration} {docs : List Doc}
    {pending : List Source.Comment}, (decls.Pairwise fun d e => d.stop ≤ e.stop) →
      InTurn (turns docs pending decls)
  | [], _, _, _ => .nil
  | decl :: decls, docs, pending, h => by
    obtain ⟨hfirst, hlater⟩ := List.pairwise_cons.mp h
    refine .cons (fun t ht => ?_) (inTurn_turns hlater)
    obtain ⟨hgrown, hmem⟩ := prefix_of_mem_turns t ht
    exact ⟨hgrown, hfirst t.2 hmem⟩

/-- The contracts of a run are made of the comments that are found with the cursor carried along,
and of the types that the comments read by then have named. -/
theorem contracts_eq_carried (front : List Doc) (r : Registry) : ∀ (decls : List Declaration)
    (docs : List Doc) (pending : List Source.Comment) (cursor : Option Nat),
      (fromDeclarations (front ++ docs) pending (r.registerDocs docs) cursor decls).contracts =
        List.zipWith (fun t place => (Contract.ofDeclaration
          (r.registerDocs (t.1.drop front.length)) (place.bind fun i => t.1[i]?) t.2).1)
          (turns (front ++ docs) pending decls)
          (carried cursor (turns (front ++ docs) pending decls))
  | [], _, _, _ => rfl
  | decl :: decls, docs, pending, cursor => by
    let near := pending.takeWhile fun c => c.start < decl.stop
    have ih := contracts_eq_carried front r decls (docs ++ docsOf near) (pending.drop near.length)
    unfold fromDeclarations turns carried
    simp only
    rw [List.append_assoc, ← Registry.registerDocs_append, ih, List.zipWith_cons_cons,
      List.drop_left]

/-- The contracts of declarations that stop in order are made of the comments that searches of their
own find among those known by then. -/
theorem contracts_eq_alone (docs : List Doc) (pending : List Source.Comment) (r : Registry)
    {decls : List Declaration} (h : decls.Pairwise fun d e => d.stop ≤ e.stop) :
    (fromDeclarations docs pending r none decls).contracts =
      (turns docs pending decls).map fun t => (Contract.ofDeclaration
        (r.registerDocs (t.1.drop docs.length))
        ((find t.1 t.2 none).doc.bind fun i => t.1[i]?) t.2).1 := by
  have hcontracts := contracts_eq_carried docs r decls [] pending none
  have hturns : InTurn (turns docs pending decls) := inTurn_turns h
  have hcarried := Association.carried_lastOf (n := 0) hturns fun _ _ => Nat.zero_le _
  rw [List.append_nil] at hcontracts
  rw [Association.lastOf] at hcarried
  simp only [Association.doc_find_none]
  rw [hcarried, List.zipWith_map_right, List.zipWith_self] at hcontracts
  exact hcontracts

end Extraction

end CallContract
