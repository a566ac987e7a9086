import CallContract.Proofs.Association.Cursor
import CallContract.Proofs.Source.TopLevel
import Mathlib

/-!
# What documents a declaration

`documentation? docs previous stop` is the documentation that the last comment between two
offsets gives. The contract of a declaration is made of the last documentation comment between
the statement in front and the end of the declaration itself : a comment within the
declaration, in its parameters or in its body, comes later than the comments in front of it and
is taken (`documentation_of_contracts`).

The comments in front of the declaration are what counts exactly if no documentation comment
lies within it, or if none of them documents it and the last comment within it names a type
(`documentation?_eq_iff`).
-/

namespace CallContract

namespace Association

/-- The documentation of the last comment that lies wholly between two offsets, of which the
first may be the start of the text; none if the comment names a type. -/
def documentation? (docs : List Doc) (previous : Option Nat) (stop : Nat) : Option Doc :=
  (docs.filter fun d => previous.all (· ≤ d.start) && d.stop ≤ stop).getLast?.filter
    fun d => d.kind != .namedType

/-- The comments that lie within a declaration. -/
def inside (docs : List Doc) (decl : Declaration) : List Doc :=
  docs.filter fun d => decl.start ≤ d.start && d.stop ≤ decl.stop

/-- Documentation comments in the order of the text, none of them empty. -/
structure InOrder (docs : List Doc) : Prop where
  pairwise : docs.Pairwise fun d e => d.stop ≤ e.start
  start_lt_stop : ∀ d ∈ docs, d.start < d.stop

/-- A declaration among comments: it comes behind the statement in front of it, and every
comment lies in front of it, within it or behind it. -/
structure Among (docs : List Doc) (decl : Declaration) : Prop where
  start_lt_stop : decl.start < decl.stop
  previous_le : ∀ p ∈ decl.previousStop, p ≤ decl.start
  apart : ∀ d ∈ docs, d.stop ≤ decl.start ∨ (decl.start ≤ d.start ∧ d.stop < decl.stop) ∨
    decl.stop ≤ d.start

variable {docs : List Doc} {decl : Declaration}

theorem Among.previous_all (ha : Among docs decl) {n : Nat} (h : decl.start ≤ n) :
    decl.previousStop.all (· ≤ n) = true := by
  rw [Option.all_eq_true_iff_get]
  intro hs
  exact decide_eq_true ((ha.previous_le _ (Option.get_mem hs)).trans h)

/-- The attached comment is the last one between the statement in front and the end of the
declaration. -/
theorem attached?_eq_documentation? (ho : InOrder docs) (ha : Among docs decl) :
    attached? docs decl = documentation? docs decl.previousStop decl.stop := by
  have hmono : docs.Pairwise fun a b => decide (b.stop < decl.stop) = true →
      decide (a.stop < decl.stop) = true := by
    refine ho.pairwise.imp_of_mem fun {a b} _ hb hab hlt => ?_
    have := ho.start_lt_stop b hb
    rw [decide_eq_true_eq] at hlt ⊢
    omega
  have hstop : docs.filter (fun d => decl.previousStop.all (· ≤ d.start) && d.stop ≤ decl.stop) =
      (before docs decl.stop).filter fun d => decl.previousStop.all (· ≤ d.start) := by
    rw [before, takeWhile_eq_filter hmono, List.filter_filter]
    refine List.filter_congr fun d hd => ?_
    have : d.stop ≤ decl.stop ↔ d.stop < decl.stop := by
      have := ho.start_lt_stop d hd
      have := ha.apart d hd
      have := ha.start_lt_stop
      omega
    simp only [this]
  have hfrom : (before docs decl.stop).Pairwise fun a b =>
      decl.previousStop.all (· ≤ a.start) = true → decl.previousStop.all (· ≤ b.start) = true := by
    have hsub : List.Sublist (before docs decl.stop) docs := List.takeWhile_sublist _
    refine (ho.pairwise.sublist hsub).imp_of_mem fun {a b} hm _ hab hall => ?_
    have := ho.start_lt_stop a (hsub.subset hm)
    cases hp : decl.previousStop with
    | none => rfl
    | some p =>
      rw [hp] at hall
      simp only [Option.all_some, decide_eq_true_eq] at hall ⊢
      omega
  rw [documentation?, hstop, getLast?_filter hfrom, Option.filter_filter]
  refine congrArg (Option.filter · _) (funext fun d => ?_)
  unfold accepts
  cases decl.previousStop <;> rfl

/-- The comments up to the end of a declaration are those in front of it and those within it. -/
theorem filter_stop_eq_append (ho : InOrder docs) (ha : Among docs decl) :
    docs.filter (fun d => decl.previousStop.all (· ≤ d.start) && d.stop ≤ decl.stop) =
      docs.filter (fun d => decl.previousStop.all (· ≤ d.start) && d.stop ≤ decl.start) ++
        inside docs decl := by
  have hmono : docs.Pairwise fun a b => decide (b.stop ≤ decl.start) = true →
      decide (a.stop ≤ decl.start) = true := by
    refine ho.pairwise.imp_of_mem fun {a b} _ hb hab hle => ?_
    have := ho.start_lt_stop b hb
    rw [decide_eq_true_eq] at hle ⊢
    omega
  have hsplit := List.takeWhile_append_dropWhile (p := fun d => decide (d.stop ≤ decl.start))
    (l := docs)
  have hfront : ∀ d ∈ docs.takeWhile fun d => decide (d.stop ≤ decl.start),
      d ∈ docs ∧ d.stop ≤ decl.start := fun d hd =>
    ⟨(List.takeWhile_sublist _).subset hd, by simpa using List.mem_takeWhile_imp hd⟩
  have hrest : ∀ d ∈ docs.dropWhile fun d => decide (d.stop ≤ decl.start),
      d ∈ docs ∧ decl.start ≤ d.start ∧ ¬d.stop ≤ decl.start := by
    intro d hd
    have hm := (List.dropWhile_sublist _).subset hd
    have hn := forall_mem_dropWhile_not hmono d hd
    rw [decide_eq_true_eq] at hn
    have := ha.apart d hm
    have := ha.start_lt_stop
    exact ⟨hm, by omega, hn⟩
  unfold inside
  conv => lhs; rw [← hsplit]
  conv => rhs; rw [← hsplit]
  simp only [List.filter_append]
  have h₁ : (docs.dropWhile fun d => decide (d.stop ≤ decl.start)).filter
      (fun d => decl.previousStop.all (· ≤ d.start) && d.stop ≤ decl.start) = [] :=
    List.filter_eq_nil_iff.mpr fun d hd => by simp [(hrest d hd).2.2]
  have h₂ : (docs.takeWhile fun d => decide (d.stop ≤ decl.start)).filter
      (fun d => decl.start ≤ d.start && d.stop ≤ decl.stop) = [] :=
    List.filter_eq_nil_iff.mpr fun d hd => by
      have := hfront d hd
      have := ho.start_lt_stop d this.1
      simp only [Bool.and_eq_true, decide_eq_true_eq]
      omega
  rw [h₁, h₂, List.append_nil, List.nil_append]
  refine congrArg₂ _ (List.filter_congr fun d hd => ?_) (List.filter_congr fun d hd => ?_)
  · have hd := (hfront d hd).2
    have := ha.start_lt_stop
    rw [decide_eq_true (by omega : d.stop ≤ decl.stop), decide_eq_true hd]
  · have hd := (hrest d hd).2.1
    rw [ha.previous_all hd, decide_eq_true hd]

/-- A comment within a declaration comes before all in front of it. -/
theorem documentation?_stop (ho : InOrder docs) (ha : Among docs decl) :
    documentation? docs decl.previousStop decl.stop =
      match (inside docs decl).getLast? with
      | none => documentation? docs decl.previousStop decl.start
      | some d => if d.kind = .namedType then none else some d := by
  rw [documentation?, filter_stop_eq_append ho ha, List.getLast?_append]
  cases (inside docs decl).getLast? with
  | none => rfl
  | some d =>
    rw [Option.some_or, Option.filter_some]
    by_cases hk : d.kind = .namedType <;> simp [hk]

/-- The comments in front of a declaration are what counts unless a comment within it documents
it, or names a type and hides one in front. -/
theorem documentation?_eq_iff (ho : InOrder docs) (ha : Among docs decl) :
    documentation? docs decl.previousStop decl.stop =
        documentation? docs decl.previousStop decl.start ↔
      ∀ d ∈ (inside docs decl).getLast?,
        d.kind = .namedType ∧ documentation? docs decl.previousStop decl.start = none := by
  rw [documentation?_stop ho ha]
  cases hl : (inside docs decl).getLast? with
  | none => simp
  | some d =>
    simp only [Option.mem_some_iff, forall_eq']
    by_cases hk : d.kind = .namedType
    · simp [hk, eq_comm]
    · simp only [hk, if_false, false_and, iff_false]
      intro he
      -- the comment within the declaration would lie in front of it
      have hin := List.mem_filter.mp (List.mem_of_getLast? hl)
      have hout := (Option.filter_eq_some_iff.mp he.symm).1
      have hfront := (List.mem_filter.mp (List.mem_of_getLast? hout)).2
      have := ho.start_lt_stop d hin.1
      simp only [Bool.and_eq_true, decide_eq_true_eq] at hin hfront
      omega

end Association

/-! ## Documentation in a source text -/

namespace Source

open Association (InOrder Among documentation? inside)
open Extraction (docsOf registryAt)

variable {source : List Char} {l : Lexed} {ss : List Statement}

/-- The documentation comments of a text are in its order. -/
theorem inOrder_docsOf (hl : tokenize source = .ok l) : InOrder (docsOf l.comments) where
  pairwise := by
    rw [docsOf, List.pairwise_filterMap]
    refine (comments_pairwise hl).imp fun {c d} hcd a ha b hb => ?_
    rw [(Doc.ofComment?_eq_some ha).2, (Doc.ofComment?_eq_some hb).1]
    exact hcd
  start_lt_stop d hd := by
    obtain ⟨c, hc, hstart, hstop⟩ := Extraction.mem_docsOf hd
    rw [hstart, hstop]
    exact start_lt_stop_of_mem_comments hl hc

/-- No comment of a text crosses the start or the stop of a declaration. -/
theorem among_docsOf (hl : tokenize source = .ok l)
    (hs : statements source l.size l.tokens = .ok ss) {decl : Declaration}
    (hd : decl ∈ declarations none ss) : Among (docsOf l.comments) decl := by
  have ho := tokensInOrder_of_tokenize hl
  obtain ⟨pre, s, post, rfl, -, hstart, hstop, hprevious⟩ := mem_declarations hd
  have hmem : s ∈ pre ++ s :: post := by simp
  have hlt := start_lt_stop_of_mem_statements ho hs hmem
  refine ⟨by rw [hstart, hstop]; exact hlt, fun p hp => ?_, fun d hd => ?_⟩
  · rw [hprevious, Option.or_none, Option.mem_def, Option.map_eq_some_iff] at hp
    obtain ⟨t, ht, rfl⟩ := hp
    have := (List.pairwise_append.mp (statements_pairwise ho hs)).2.2
    rw [hstart]
    exact this t (List.mem_of_getLast? ht) s List.mem_cons_self
  · obtain ⟨c, hc, hcstart, hcstop⟩ := Extraction.mem_docsOf hd
    have hfirst := mem_of_mem_statement hs hmem (t := s.first) List.mem_cons_self
    have hlast := mem_of_mem_statement hs hmem s.last_mem_tokens
    have h₁ := apart_of_tokenize hl hfirst hc
    have h₂ := apart_of_tokenize hl hlast hc
    have h₃ := ho.start_lt_stop _ hfirst
    have h₄ := ho.start_lt_stop _ hlast
    rw [hstart, hstop, hcstart, hcstop, Statement.start, Statement.stop]
    omega

/-- The contracts of a text, with `hoist` and without : each declaration is a statement, and its
contract is made of the last documentation comment between the statement in front and its own
stop. The comments up to its start would give the same exactly if no comment within the
declaration comes later, or the last of them names a type and there is no other. -/
theorem documentation_of_contracts {source : String} {file : File}
    (h : readModule source.toList = .ok file) (hoist : Bool) (r : Registry) :
    ∃ l ss x, tokenize source.toList = .ok l ∧
      statements source.toList l.size l.tokens = .ok ss ∧
      file.declarations = declarations none ss ∧ extract hoist r source = .ok x ∧
      x.contracts = file.declarations.map (fun decl =>
        (Contract.ofDeclaration (registryAt hoist r file.comments decl)
          (documentation? (docsOf file.comments) decl.previousStop decl.stop) decl).1) ∧
      ∀ decl ∈ file.declarations,
        (∃ pre s post, ss = pre ++ s :: post ∧ decl.start = s.start ∧ decl.stop = s.stop ∧
          decl.previousStop = pre.getLast?.map Statement.stop) ∧
        (documentation? (docsOf file.comments) decl.previousStop decl.stop =
            documentation? (docsOf file.comments) decl.previousStop decl.start ↔
          ∀ d ∈ (inside (docsOf file.comments) decl).getLast?, d.kind = .namedType ∧
            documentation? (docsOf file.comments) decl.previousStop decl.start = none) := by
  obtain ⟨l, ss, hl, hs, rfl⟩ := declarations_of_readModule h
  have ho := inOrder_docsOf hl
  have hpairwise := statements_pairwise (tokensInOrder_of_tokenize hl) hs
  refine ⟨l, ss, _, hl, hs, rfl, by rw [extract, h]; rfl, ?_, fun decl hd => ⟨?_, ?_⟩⟩
  · rw [Extraction.contracts_ofFile hoist r]
    · refine List.map_congr_left fun decl hd => ?_
      rw [Association.attached?_eq_documentation? ho (among_docsOf hl hs hd)]
    · refine (declarations_pairwise hpairwise).imp_of_mem fun {a b} _ hb hab => ?_
      exact hab.trans (among_docsOf hl hs hb).start_lt_stop.le
    · refine (comments_pairwise hl).imp_of_mem fun {a b} ha _ hab => ?_
      exact (start_lt_stop_of_mem_comments hl ha).le.trans hab
    · exact fun c => start_lt_stop_of_mem_comments hl
  · obtain ⟨pre, s, post, hss, -, hstart, hstop, hprevious⟩ := mem_declarations hd
    exact ⟨pre, s, post, hss, hstart, hstop, by rw [hprevious, Option.or_none]⟩
  · exact Association.documentation?_eq_iff ho (among_docsOf hl hs hd)

theorem documentation_of_contracts_leading_comment :
    readModule "/** A */ function f() \x7b\x7d".toList =
        .ok ⟨[⟨"f", [], 9, 24, none⟩], [⟨true, "* A ", 0, 8⟩]⟩ ∧
      ∃ l ss x, tokenize "/** A */ function f() \x7b\x7d".toList = .ok l ∧
        statements "/** A */ function f() \x7b\x7d".toList l.size l.tokens = .ok ss ∧
        [⟨"f", [], 9, 24, none⟩] = declarations none ss ∧
        extract false .empty "/** A */ function f() \x7b\x7d" = .ok x ∧
        x.contracts.map Contract.description = [some "A"] := by
  have h : readModule "/** A */ function f() \x7b\x7d".toList =
      .ok ⟨[⟨"f", [], 9, 24, none⟩], [⟨true, "* A ", 0, 8⟩]⟩ := by cbv
  obtain ⟨l, ss, x, hl, hs, hd, hx, hc, -⟩ := documentation_of_contracts h false .empty
  refine ⟨h, l, ss, x, hl, hs, hd, hx, ?_⟩
  rw [hc]
  cbv

/-- A comment in the body of a function takes the place of the one in front of it. -/
theorem comment_in_body_documents :
    ¬∀ (hoist : Bool) (r : Registry) (source : String) (file : File) (x : Extraction),
      readModule source.toList = .ok file → extract hoist r source = .ok x →
      x.contracts.map Contract.description = file.declarations.map fun decl =>
        (documentation? (docsOf file.comments) decl.previousStop decl.start).bind
          Doc.description := by
  intro h
  have hwrong := h false .empty "/** A */ function f() \x7b /** B */ \x7d"
    ⟨[⟨"f", [], 9, 34, none⟩], [⟨true, "* A ", 0, 8⟩, ⟨true, "* B ", 24, 32⟩]⟩
    ⟨[⟨"f", some "B", []⟩], [], .empty⟩ (by cbv) (by cbv)
  have hfront : (documentation? (docsOf [⟨true, "* A ", 0, 8⟩, ⟨true, "* B ", 24, 32⟩])
      none 9).bind Doc.description = some "A" := by cbv
  rw [List.map_singleton, List.map_singleton, hfront] at hwrong
  simp at hwrong

end Source

end CallContract
