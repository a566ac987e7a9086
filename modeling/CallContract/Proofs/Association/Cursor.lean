import CallContract.Extraction
import CallContract.Proofs.Prefix

/-!
# The cursor over documentation comments

`Association.find` carries a cursor from declaration to declaration, and without `hoist` the
comments come in as the declarations do. Neither matters for the result. The cursor is always
the last of the comments in a row that stop before the declaration (`advance_lastOf`), so the
comment that is found is `attached?`, a function of all comments of the text and of one
declaration; and the contracts and the warnings of a text are those of its declarations beside
`attached?` (`outcomes_fromDeclarations`, `outcomes_ofFile`). The registry that results has
the named types of all comments (`registry_fromDeclarations`, `registry_ofFile`).
-/

namespace CallContract

/-! ## Passing comments -/

namespace Association

/-- The last of `n` places. -/
def lastOf : Nat → Option Nat
  | 0 => none
  | n + 1 => some n

@[simp] theorem nextPlace_lastOf (n : Nat) : nextPlace (lastOf n) = n := by
  cases n <;> rfl

/-- The comments in a row that stop before an offset. -/
def before (docs : List Doc) (stop : Nat) : List Doc := docs.takeWhile fun d => d.stop < stop

/-- The comment that documents a declaration: the last of those in a row that stop before the
declaration stops, if it may. -/
def attached? (docs : List Doc) (decl : Declaration) : Option Doc :=
  (before docs decl.stop).getLast?.filter (accepts decl)

theorem getLast?_takeWhile {α : Type} {p : α → Bool} (l : List α) :
    (l.takeWhile p).getLast? = (lastOf (l.takeWhile p).length).bind (l[·]?) := by
  rw [List.getLast?_eq_getElem?]
  cases hn : (l.takeWhile p).length with
  | zero => rw [List.length_eq_zero_iff.mp hn]; rfl
  | succ n =>
    obtain ⟨t, ht⟩ := List.takeWhile_prefix p (l := l)
    rw [lastOf, Option.bind_some, Nat.add_sub_cancel]
    conv => rhs; rw [← ht]
    rw [List.getElem?_append_left (by omega)]

/-- From wherever it starts, the cursor comes to the last comment in a row that stops before the
offset. -/
theorem advance_lastOf (docs : List Doc) {n stop : Nat} (h : n ≤ (before docs stop).length) :
    advance docs stop (lastOf n) = lastOf (before docs stop).length := by
  have hlen := length_takeWhile_eq_add h
  unfold advance
  simp only [nextPlace_lastOf]
  rw [before, hlen]
  cases hk : ((docs.drop n).takeWhile fun d => decide (d.stop < stop)).length with
  | zero => rw [if_pos rfl, Nat.add_zero]
  | succ k => rw [if_neg (Nat.succ_ne_zero k)]; rfl

/-- The search with a cursor finds the attached comment. -/
theorem find_lastOf (docs : List Doc) (decl : Declaration) {n : Nat}
    (h : n ≤ (before docs decl.stop).length) :
    (find docs decl (lastOf n)).cursor = lastOf (before docs decl.stop).length ∧
      ((find docs decl (lastOf n)).doc.bind fun i => docs[i]?) = attached? docs decl := by
  refine ⟨advance_lastOf docs h, ?_⟩
  simp only [find, advance_lastOf docs h]
  rw [attached?, before, getLast?_takeWhile]
  cases lastOf (docs.takeWhile fun d => decide (d.stop < decl.stop)).length with
  | none => rfl
  | some i =>
    cases hi : docs[i]? with
    | none => simp [hi]
    | some d => cases hd : accepts decl d <;> simp [Option.filter, hi, hd]

theorem length_before_le {docs : List Doc} (more : List Doc) {m n : Nat} (h : m ≤ n) :
    (before docs m).length ≤ (before (docs ++ more) n).length :=
  length_takeWhile_le fun d hd => by
    rw [decide_eq_true_eq] at hd ⊢
    omega

end Association

/-! ## Contracts of declarations -/

theorem Registry.registerDocs_append (r : Registry) (ds es : List Doc) :
    r.registerDocs (ds ++ es) = (r.registerDocs ds).registerDocs es := by
  simp only [registerDocs, typeDefs, registerAll, List.filterMap_append, List.foldl_append]

theorem Doc.ofComment?_eq_some {c : Source.Comment} {d : Doc} (h : Doc.ofComment? c = some d) :
    d.start = c.start ∧ d.stop = c.stop := by
  unfold Doc.ofComment? at h
  split at h
  · cases h
    simp only [Doc.ofBlock]
    split
    · split <;> exact ⟨rfl, rfl⟩
    · exact ⟨rfl, rfl⟩
  · simp at h

namespace Extraction

open Association (attached? before lastOf)

theorem docsOf_append (cs ds : List Source.Comment) :
    docsOf (cs ++ ds) = docsOf cs ++ docsOf ds :=
  List.filterMap_append

theorem mem_docsOf {cs : List Source.Comment} {d : Doc} (h : d ∈ docsOf cs) :
    ∃ c ∈ cs, d.start = c.start ∧ d.stop = c.stop := by
  obtain ⟨c, hc, hd⟩ := List.mem_filterMap.mp h
  exact ⟨c, hc, Doc.ofComment?_eq_some hd⟩

/-- Comments that start behind an offset are not passed before it. -/
theorem before_docsOf_append {cs ds : List Source.Comment} {stop : Nat}
    (h : ∀ c ∈ ds, stop ≤ c.start ∧ c.start < c.stop) :
    before (docsOf (cs ++ ds)) stop = before (docsOf cs) stop := by
  rw [docsOf_append]
  refine takeWhile_append_of_forall_not fun d hd => ?_
  obtain ⟨c, hc, -, hstop⟩ := mem_docsOf hd
  have := h c hc
  rw [decide_eq_true_eq]
  omega

/-- Of comments in order, those that are not taken start behind. -/
theorem le_start_of_mem_dropWhile {pending : List Source.Comment} {stop : Nat}
    (hp : pending.Pairwise fun c d => c.start ≤ d.start) {c : Source.Comment}
    (h : c ∈ pending.dropWhile fun c => c.start < stop) : stop ≤ c.start := by
  have hmono : pending.Pairwise fun a b => decide (b.start < stop) = true →
      decide (a.start < stop) = true := hp.imp fun {a b} hab hb => by
    rw [decide_eq_true_eq] at hb ⊢
    omega
  have hnot := forall_mem_dropWhile_not hmono c h
  rw [decide_eq_true_eq] at hnot
  omega

/-- Of comments in order, those that start before an offset are all that can be passed before it. -/
theorem before_near (seen : List Source.Comment) {pending : List Source.Comment} {stop : Nat}
    (hp : pending.Pairwise fun c d => c.start ≤ d.start) (hc : ∀ c ∈ pending, c.start < c.stop) :
    before (docsOf (seen ++ pending.takeWhile fun c => c.start < stop)) stop =
      before (docsOf (seen ++ pending)) stop := by
  have hrest : ∀ c ∈ pending.dropWhile fun c => c.start < stop, stop ≤ c.start ∧ c.start < c.stop :=
    fun c hcr => ⟨le_start_of_mem_dropWhile hp hcr, hc c ((List.dropWhile_sublist _).subset hcr)⟩
  conv => rhs; rw [← List.takeWhile_append_dropWhile (p := fun c => decide (c.start < stop))
    (l := pending), ← List.append_assoc]
  exact (before_docsOf_append hrest).symm

/-- What has been passed before one declaration is passed before the next, when more is read. -/
theorem length_before_near (seen near : List Source.Comment) {m n k : Nat} (hmn : m ≤ n)
    (h : k ≤ (before (docsOf seen) m).length) :
    k ≤ (before (docsOf (seen ++ near)) n).length := by
  rw [docsOf_append]
  exact h.trans (Association.length_before_le _ hmn)

/-- Taking comments in two steps takes those of the second step. -/
theorem append_takeWhile_of_le (seen pending : List Source.Comment) {stop later : Nat}
    (h : stop ≤ later) :
    (seen ++ pending.takeWhile fun c => c.start < stop) ++
        (pending.dropWhile fun c => c.start < stop).takeWhile (fun c => c.start < later) =
      seen ++ pending.takeWhile fun c => c.start < later := by
  rw [List.append_assoc]
  congr 1
  refine takeWhile_append_takeWhile (fun c hc => ?_) pending
  rw [decide_eq_true_eq] at hc ⊢
  omega

/-- The contracts and the warnings of declarations, whatever has been read and passed before: those
of each declaration come from the comment attached to it among all comments, and from the named
types of the comments that have been read by then. -/
theorem outcomes_fromDeclarations (r : Registry) :
    ∀ (decls : List Declaration) (seen pending : List Source.Comment) (n : Nat),
      (decls.Pairwise fun d e => d.stop ≤ e.stop) →
      (pending.Pairwise fun c d => c.start ≤ d.start) → (∀ c ∈ pending, c.start < c.stop) →
      (∀ d ∈ decls, n ≤ (before (docsOf seen) d.stop).length) →
      let outcomes := decls.map fun d => Contract.ofDeclaration
        (r.registerDocs (docsOf (seen ++ pending.takeWhile fun c => c.start < d.stop)))
        (attached? (docsOf (seen ++ pending)) d) d
      let x := fromDeclarations (docsOf seen) pending (r.registerDocs (docsOf seen)) (lastOf n)
        decls
      x.contracts = outcomes.map Prod.fst ∧ x.warnings = outcomes.flatMap Prod.snd
  | [], _, _, _, _, _, _, _ => ⟨rfl, rfl⟩
  | d :: decls, seen, pending, n, hd, hp, hc, hn => by
    obtain ⟨hd₁, hd₂⟩ := List.pairwise_cons.mp hd
    let near := pending.takeWhile fun c => c.start < d.stop
    let rest := pending.dropWhile fun c => c.start < d.stop
    have hnear : near ++ rest = pending := List.takeWhile_append_dropWhile
    have hrest : List.Sublist rest pending := List.dropWhile_sublist _
    have hbefore := length_before_near seen near le_rfl (hn d List.mem_cons_self)
    have hfind := Association.find_lastOf (docsOf (seen ++ near)) d hbefore
    have hattached :
        attached? (docsOf (seen ++ near)) d = attached? (docsOf (seen ++ pending)) d := by
      unfold attached?
      rw [before_near seen hp hc]
    obtain ⟨ihc, ihw⟩ := outcomes_fromDeclarations r decls (seen ++ near) rest
      (before (docsOf (seen ++ near)) d.stop).length hd₂ (hp.sublist hrest)
      (fun c hcr => hc c (hrest.subset hcr))
      (fun e he => by simpa using length_before_near (seen ++ near) [] (hd₁ e he) le_rfl)
    have hlater : ∀ e ∈ decls, (seen ++ near) ++ rest.takeWhile (fun c => c.start < e.stop) =
        seen ++ pending.takeWhile fun c => c.start < e.stop :=
      fun e he => append_takeWhile_of_le seen pending (hd₁ e he)
    unfold fromDeclarations
    simp only [← docsOf_append, ← Registry.registerDocs_append, drop_length_takeWhile]
    have hrestOutcomes : (decls.map fun e => Contract.ofDeclaration
        (r.registerDocs (docsOf ((seen ++ near) ++ rest.takeWhile fun c => c.start < e.stop)))
        (attached? (docsOf ((seen ++ near) ++ rest)) e) e) =
        decls.map fun e => Contract.ofDeclaration
          (r.registerDocs (docsOf (seen ++ pending.takeWhile fun c => c.start < e.stop)))
          (attached? (docsOf (seen ++ pending)) e) e :=
      List.map_congr_left fun e he => by rw [hlater e he, List.append_assoc, hnear]
    rw [hrestOutcomes] at ihc ihw
    rw [List.map_cons, List.map_cons, List.flatMap_cons, hfind.1, ihc, ihw, ← hattached, ← hfind.2]
    exact ⟨rfl, rfl⟩

/-- Whatever has been read and passed, all pending comments are read in the end. -/
theorem registry_fromDeclarations : ∀ (decls : List Declaration) (docs : List Doc)
    (pending : List Source.Comment) (r : Registry) (cursor : Option Nat),
      (fromDeclarations docs pending r cursor decls).registry = r.registerDocs (docsOf pending)
  | [], _, _, _, _ => rfl
  | decl :: decls, docs, pending, r, cursor => by
    unfold fromDeclarations
    simp only
    rw [registry_fromDeclarations decls, ← Registry.registerDocs_append, ← docsOf_append,
      drop_length_takeWhile, List.takeWhile_append_dropWhile]

theorem registry_ofFile (hoist : Bool) (r : Registry) (file : Source.File) :
    (ofFile hoist r file).registry = r.registerDocs (docsOf file.comments) := by
  cases hoist with
  | true => exact registry_fromDeclarations file.declarations _ [] _ none
  | false => exact registry_fromDeclarations file.declarations [] file.comments r none

/-- The named types that are known when a declaration comes up. -/
def registryAt (hoist : Bool) (r : Registry) (comments : List Source.Comment)
    (decl : Declaration) : Registry :=
  r.registerDocs (docsOf
    (if hoist then comments else comments.takeWhile fun c => c.start < decl.stop))

section File

variable (hoist : Bool) (r : Registry) {file : Source.File}

/-- With `hoist` and without, the contracts and the warnings are those of the declarations beside
their attached comments. -/
theorem outcomes_ofFile (hd : file.declarations.Pairwise fun d e => d.stop ≤ e.stop)
    (hp : file.comments.Pairwise fun c d => c.start ≤ d.start)
    (hc : ∀ c ∈ file.comments, c.start < c.stop) :
    let outcomes := file.declarations.map fun d =>
      Contract.ofDeclaration (registryAt hoist r file.comments d)
        (attached? (docsOf file.comments) d) d
    (ofFile hoist r file).contracts = outcomes.map Prod.fst ∧
      (ofFile hoist r file).warnings = outcomes.flatMap Prod.snd := by
  cases hoist with
  | true =>
    have := outcomes_fromDeclarations r file.declarations file.comments [] 0 hd .nil (by simp)
      (by simp)
    simpa [ofFile, registryAt, lastOf] using this
  | false =>
    have := outcomes_fromDeclarations r file.declarations [] file.comments 0 hd hp hc (by simp)
    simpa [ofFile, registryAt, lastOf, docsOf, Registry.registerDocs, Registry.registerAll,
      typeDefs] using this

theorem contracts_ofFile (hd : file.declarations.Pairwise fun d e => d.stop ≤ e.stop)
    (hp : file.comments.Pairwise fun c d => c.start ≤ d.start)
    (hc : ∀ c ∈ file.comments, c.start < c.stop) :
    (ofFile hoist r file).contracts = file.declarations.map fun d =>
      (Contract.ofDeclaration (registryAt hoist r file.comments d)
        (attached? (docsOf file.comments) d) d).1 := by
  rw [(outcomes_ofFile hoist r hd hp hc).1, List.map_map]
  rfl

end File

end Extraction

theorem Source.extract_of_readModule {source : String} {file : File}
    (h : readModule source.toList = .ok file) (hoist : Bool) (r : Registry) :
    extract hoist r source = .ok (.ofFile hoist r file) := by
  rw [extract, h]
  rfl

end CallContract
