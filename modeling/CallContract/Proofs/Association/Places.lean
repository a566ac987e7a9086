import CallContract.Proofs.Association.Hoisting
import CallContract.Proofs.Source.DeclarationOrder

/-!
# No comment documents two declarations

The search leaves its cursor on the comment that it found, so the next declaration meets that
comment again. `placesFrom` records, as `fromDeclarations` goes on, at which place among the
comments the search found one. Like the comment itself the place is a function of all comments
and of one declaration (`place?`, `placesFrom_eq`) : the comment there stops before the
declaration does and starts behind the statement in front of it, which lies behind all earlier
declarations. So the places ascend (`place_lt_place`), and no comment is found twice
(`Source.places_of_extract`).
-/

namespace CallContract

namespace Association

variable {docs : List Doc} {decl : Declaration}

/-- The place of the attached comment. -/
def place? (docs : List Doc) (decl : Declaration) : Option Nat :=
  if (attached? docs decl).isSome then lastOf (before docs decl.stop).length else none

theorem getElem?_place? (docs : List Doc) (decl : Declaration) :
    ((place? docs decl).bind fun i => docs[i]?) = attached? docs decl := by
  unfold place?
  split
  · rename_i h
    obtain ⟨d, hd⟩ := Option.isSome_iff_exists.mp h
    have hlast := (Option.filter_eq_some_iff.mp hd).1
    rw [before, getLast?_takeWhile] at hlast
    rw [before, hlast, hd]
  · rename_i h
    exact (Option.not_isSome_iff_eq_none.mp h).symm

/-- The search with a cursor finds the place of the attached comment. -/
theorem doc_find_lastOf {n : Nat} (h : n ≤ (before docs decl.stop).length) :
    (find docs decl (lastOf n)).doc = place? docs decl := by
  have hlast : (before docs decl.stop).getLast? = _ := getLast?_takeWhile docs
  simp only [find, advance_lastOf docs h]
  unfold place? attached?
  rw [hlast, before]
  cases lastOf (docs.takeWhile fun d => decide (d.stop < decl.stop)).length with
  | none => rfl
  | some i =>
    rw [Option.bind_some]
    cases hi : docs[i]? with
    | none => simp [Option.filter, hi]
    | some d => cases hd : accepts decl d <;> simp [Option.filter, hi, hd]

/-- The comment at the place of a declaration stops before the declaration does and starts behind
the statement in front of it. -/
theorem exists_of_place? {i : Nat} (h : place? docs decl = some i) :
    ∃ d, docs[i]? = some d ∧ attached? docs decl = some d ∧ d.stop < decl.stop ∧
      (∀ p ∈ decl.previousStop, p ≤ d.start) ∧ d.kind ≠ .namedType := by
  have hattached := getElem?_place? docs decl
  rw [h, Option.bind_some] at hattached
  have hsome : (attached? docs decl).isSome = true := by
    by_contra hnone
    rw [place?, if_neg hnone] at h
    cases h
  obtain ⟨d, hd⟩ := Option.isSome_iff_exists.mp hsome
  obtain ⟨hlast, haccepts⟩ := Option.filter_eq_some_iff.mp hd
  have hmem : d ∈ before docs decl.stop := List.mem_of_getLast? hlast
  have hstop := List.mem_takeWhile_imp hmem
  rw [accepts, Bool.and_eq_true] at haccepts
  refine ⟨d, by rw [hattached, hd], hd, of_decide_eq_true hstop, fun p hp => ?_,
    by simpa using haccepts.2⟩
  have hprevious := haccepts.1
  rw [hp] at hprevious
  exact of_decide_eq_true hprevious

/-- Of two declarations the one that comes later has its comment at a later place. -/
theorem place_lt_place (ho : InOrder docs) {d e : Declaration} {i j : Nat}
    (hde : Source.Follows d e) (hi : place? docs d = some i)
    (hj : place? docs e = some j) : i < j := by
  obtain ⟨p, hp, hdp, hpe⟩ := hde
  obtain ⟨a, ha, -, hstop, -, -⟩ := exists_of_place? hi
  obtain ⟨b, hb, -, -, hfrom, -⟩ := exists_of_place? hj
  have hpb := hfrom p hp
  have halt := ho.start_lt_stop a (List.mem_of_getElem? ha)
  by_contra hji
  -- the comment `b` would be `a` or come before it, and starts behind the end of `d`
  rcases Nat.lt_or_ge j i with hji | hij
  · obtain ⟨hjlen, rfl⟩ := List.getElem?_eq_some_iff.mp hb
    obtain ⟨hilen, rfl⟩ := List.getElem?_eq_some_iff.mp ha
    have hapart := List.pairwise_iff_getElem.mp ho.pairwise j i hjlen hilen hji
    have hblt := ho.start_lt_stop _ (List.getElem_mem hjlen)
    omega
  · obtain rfl : i = j := by omega
    obtain rfl := Option.some.inj (ha.symm.trans hb)
    omega

end Association

namespace Extraction

open Association (place? attached? before lastOf)

/-- The places at which the search finds comments for declarations, as `fromDeclarations` goes
through them. -/
def placesFrom (docs : List Doc) (pending : List Source.Comment) (cursor : Option Nat) :
    List Declaration → List (Option Nat)
  | [] => []
  | decl :: decls =>
    let near := pending.takeWhile fun c => c.start < decl.stop
    let docs := docs ++ docsOf near
    let found := Association.find docs decl cursor
    found.doc :: placesFrom docs (pending.drop near.length) found.cursor decls

/-- The places of the comments that are found for the declarations of a source text. -/
def placesOf (hoist : Bool) (file : Source.File) : List (Option Nat) :=
  if hoist then placesFrom (docsOf file.comments) [] none file.declarations
  else placesFrom [] file.comments none file.declarations

/-- Whatever has been read and passed, each declaration gets the place of the comment attached to
it among all comments. -/
theorem placesFrom_eq :
    ∀ (decls : List Declaration) (seen pending : List Source.Comment) (n : Nat),
      (decls.Pairwise fun d e => d.stop ≤ e.stop) →
      (pending.Pairwise fun c d => c.start ≤ d.start) → (∀ c ∈ pending, c.start < c.stop) →
      (∀ d ∈ decls, n ≤ (before (docsOf seen) d.stop).length) →
      placesFrom (docsOf seen) pending (lastOf n) decls =
        decls.map (place? (docsOf (seen ++ pending)))
  | [], _, _, _, _, _, _, _ => rfl
  | d :: decls, seen, pending, n, hd, hp, hc, hn => by
    obtain ⟨hd₁, hd₂⟩ := List.pairwise_cons.mp hd
    let near := pending.takeWhile fun c => c.start < d.stop
    let rest := pending.dropWhile fun c => c.start < d.stop
    have hnear : near ++ rest = pending := List.takeWhile_append_dropWhile
    have hrest : List.Sublist rest pending := List.dropWhile_sublist _
    have hbefore := length_before_near seen near le_rfl (hn d List.mem_cons_self)
    have hplace : place? (docsOf (seen ++ near)) d = place? (docsOf (seen ++ pending)) d := by
      unfold place? attached?
      rw [before_near seen hp hc]
    have ih := placesFrom_eq decls (seen ++ near) rest
      (before (docsOf (seen ++ near)) d.stop).length hd₂ (hp.sublist hrest)
      (fun c hcr => hc c (hrest.subset hcr))
      (fun e he => by simpa using length_before_near (seen ++ near) [] (hd₁ e he) le_rfl)
    rw [List.append_assoc, hnear] at ih
    unfold placesFrom
    simp only [← docsOf_append, drop_length_takeWhile]
    rw [(Association.find_lastOf _ d hbefore).1, Association.doc_find_lastOf hbefore, hplace, ih]
    rfl

theorem placesOf_eq (hoist : Bool) {file : Source.File}
    (hd : file.declarations.Pairwise fun d e => d.stop ≤ e.stop)
    (hp : file.comments.Pairwise fun c d => c.start ≤ d.start)
    (hc : ∀ c ∈ file.comments, c.start < c.stop) :
    placesOf hoist file = file.declarations.map (place? (docsOf file.comments)) := by
  cases hoist with
  | true =>
    have := placesFrom_eq file.declarations file.comments [] 0 hd .nil (by simp) (by simp)
    simpa [placesOf, lastOf] using this
  | false =>
    have := placesFrom_eq file.declarations [] file.comments 0 hd hp hc (by simp)
    simpa [placesOf, lastOf, docsOf] using this

end Extraction

namespace Source

open Association (place?)
open Extraction (docsOf placesOf registryAt)

/-- The places of the comments of a text ascend with its declarations. -/
theorem places_pairwise {source : List Char} {l : Lexed} {ss : List Statement}
    (hl : tokenize source = .ok l) (hs : statements source l.size l.tokens = .ok ss) :
    (((declarations none ss).map (place? (docsOf l.comments))).filterMap id).Pairwise (· < ·) := by
  have ho := tokensInOrder_of_tokenize hl
  have hlt : ∀ s ∈ ss, s.start < s.stop := fun s => start_lt_stop_of_mem_statements ho hs
  rw [List.pairwise_filterMap, List.pairwise_map]
  refine (declarations_order hlt (statements_pairwise ho hs)).imp fun hde i hi j hj => ?_
  exact Association.place_lt_place (inOrder_docsOf hl) hde hi hj

/-- With `hoist` and without, the contract of each declaration of a text is made of the comment at
the place that the search found for it. The places ascend, so no comment documents two
declarations, and the comment starts no earlier than the statement in front of the declaration
stops and stops before the declaration does. -/
theorem places_of_extract {source : String} {file : File} (h : readModule source.toList = .ok file)
    (hoist : Bool) (r : Registry) :
    ∃ l ss x, tokenize source.toList = .ok l ∧
      statements source.toList l.size l.tokens = .ok ss ∧
      file.declarations = declarations none ss ∧ extract hoist r source = .ok x ∧
      (placesOf hoist file).length = file.declarations.length ∧
      x.contracts = List.zipWith (fun decl place =>
        (Contract.ofDeclaration (registryAt hoist r file.comments decl)
          (place.bind fun i => (docsOf file.comments)[i]?) decl).1)
        file.declarations (placesOf hoist file) ∧
      ((placesOf hoist file).filterMap id).Pairwise (· < ·) ∧
      ∀ decl place, (decl, place) ∈ file.declarations.zip (placesOf hoist file) →
        ∃ pre s post, ss = pre ++ s :: post ∧ decl.start = s.start ∧ decl.stop = s.stop ∧
          ∀ i ∈ place, ∃ d, (docsOf file.comments)[i]? = some d ∧
            (∀ a ∈ pre.getLast?, a.stop ≤ d.start) ∧ d.stop < decl.stop := by
  have hcontracts := contracts_of_readModule h hoist r
  obtain ⟨l, ss, hl, hs, rfl⟩ := declarations_of_readModule h
  let decls := declarations none ss
  let docs := docsOf l.comments
  have hplaces : placesOf hoist ⟨decls, l.comments⟩ = decls.map (place? docs) :=
    Extraction.placesOf_eq hoist (declaration_stops_pairwise hl hs) (comment_starts_pairwise hl)
      fun c => start_lt_stop_of_mem_comments hl
  have hzip : decls.zip (decls.map (place? docs)) = decls.map fun d => (d, place? docs d) := by
    have := List.zip_map' (f := id) (g := place? docs) (l := decls)
    rwa [List.map_id] at this
  refine ⟨l, ss, _, hl, hs, rfl, by rw [extract, h]; rfl, ?_, ?_, ?_, fun decl place hmem => ?_⟩
  · rw [hplaces, List.length_map]
  · rw [hplaces, hcontracts, List.zipWith_map_right, List.zipWith_self]
    exact List.map_congr_left fun decl _ => by rw [Association.getElem?_place?]
  · rw [hplaces]
    exact places_pairwise hl hs
  · rw [hplaces, hzip] at hmem
    obtain ⟨d, hd, heq⟩ := List.mem_map.mp hmem
    cases heq
    obtain ⟨pre, s, post, hss, -, hstart, hstop, hprevious⟩ := mem_declarations hd
    refine ⟨pre, s, post, hss, hstart, hstop, fun i hi => ?_⟩
    obtain ⟨doc, hdoc, -, hbefore, hfrom, -⟩ := Association.exists_of_place? hi
    refine ⟨doc, hdoc, fun a ha => hfrom a.stop ?_, hbefore⟩
    rw [hprevious, Option.or_none]
    exact Option.mem_map_of_mem _ ha

/-- A text with a comment in front of its first function, one in the body of the second, and none
for the third, which the second could be taken to precede. -/
def commentedText : String :=
  "/** A */ function f() \x7b\x7d function g() \x7b /** B */ \x7d function h() \x7b\x7d"

theorem places_of_extract_commentedText : ∃ file, readModule commentedText.toList = .ok file ∧
    placesOf false file = [some 0, some 1, none] ∧ ∃ x, extract false .empty commentedText = .ok x ∧
      x.contracts.map Contract.description = [some "A", some "B", none] ∧
      (placesOf false file).length = file.declarations.length ∧
      ((placesOf false file).filterMap id).Pairwise (· < ·) := by
  have h : readModule commentedText.toList = .ok
      ⟨[⟨"f", [], 9, 24, none⟩, ⟨"g", [], 25, 50, some 24⟩, ⟨"h", [], 51, 66, some 50⟩],
        [⟨true, "* A ", 0, 8⟩, ⟨true, "* B ", 40, 48⟩]⟩ := by cbv
  obtain ⟨l, ss, x, hl, hs, -, hx, hlength, hcontracts, hpairwise, -⟩ :=
    places_of_extract h false .empty
  refine ⟨_, h, by cbv, x, hx, ?_, hlength, hpairwise⟩
  rw [hcontracts]
  cbv

end Source

end CallContract
