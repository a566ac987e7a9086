import CallContract.Proofs.Association.Cursor
import CallContract.Proofs.Path.Position

/-!
# Paths of parameter tags

Of the tags of a comment the undotted ones count the arguments, and a dotted one is read below
the argument that is reached (`Doc.paramPaths_undotted`, `Doc.paramPaths_dotted`). So the paths of
a list of tags depend on the tags in front by the number of the undotted ones alone
(`Doc.paramPaths_append`), and each argument has at most one undotted tag
(`Doc.position_of_mem_paramPaths`).
-/

namespace CallContract

namespace Text

theorem splitFirst_eq_none {sep : Char} : ∀ {s : List Char}, sep ∉ s → splitFirst sep s = none
  | [], _ => rfl
  | c :: s, h => by
    rw [List.mem_cons, not_or] at h
    rw [splitFirst, if_neg (Ne.symm h.1), splitFirst_eq_none h.2]
    rfl

theorem splitFirst_append {sep : Char} {b : List Char} : ∀ {a : List Char}, sep ∉ a →
    splitFirst sep (a ++ sep :: b) = some (a, b)
  | [], _ => by rw [List.nil_append, splitFirst, if_pos rfl]
  | c :: a, h => by
    rw [List.mem_cons, not_or] at h
    rw [List.cons_append, splitFirst, if_neg (Ne.symm h.1), splitFirst_append h.2]
    rfl

end Text

/-! ## Paths of tags -/

namespace Doc

open Association (lastOf nextPlace nextPlace_lastOf)

variable {t : Tag} {ts : List Tag}

/-- Whether a tag is about an argument, not about something in it. -/
def isUndotted (t : Tag) : Bool := !t.name.toList.contains '.'

theorem isUndotted_iff : isUndotted t = true ↔ '.' ∉ t.name.toList := by simp [isUndotted]

/-- An undotted tag is about the next argument. -/
theorem paramPaths_undotted (h : isUndotted t = true) (n : Nat) : paramPaths (lastOf n) (t :: ts) =
    (.root n, t) :: paramPaths (lastOf (n + 1)) ts := by
  rw [paramPaths.eq_def]
  simp only [Text.splitFirst_eq_none (isUndotted_iff.mp h)]
  cases n <;> rfl

/-- A dotted tag is about something in the argument that was reached. -/
theorem paramPaths_dotted {x rest : List Char} (h : t.name.toList = x ++ '.' :: rest)
    (hx : '.' ∉ x) (top : Option Nat) : paramPaths top (t :: ts) =
      ((ArgPath.root (top.getD 0)).child (String.ofList rest), t) :: paramPaths top ts := by
  rw [paramPaths.eq_def]
  simp only [h, Text.splitFirst_append hx]

/-- A tag that is not undotted has a first point. -/
theorem exists_first_point (h : isUndotted t = false) :
    ∃ x rest, t.name.toList = x ++ '.' :: rest ∧ '.' ∉ x := by
  have hmem : '.' ∈ t.name.toList := by simpa [isUndotted] using h
  obtain ⟨x, rest, heq, hx⟩ := List.eq_append_cons_of_mem hmem
  exact ⟨x, rest, heq, hx⟩

theorem paramPaths_append : ∀ (n : Nat) (a b : List Tag), paramPaths (lastOf n) (a ++ b) =
    paramPaths (lastOf n) a ++ paramPaths (lastOf (n + a.countP isUndotted)) b
  | n, [], b => rfl
  | n, t :: a, b => by
    rw [List.cons_append]
    cases h : isUndotted t with
    | true =>
      rw [paramPaths_undotted h, paramPaths_undotted h, paramPaths_append (n + 1) a b,
        List.countP_cons_of_pos h, List.cons_append, Nat.add_right_comm, Nat.add_assoc]
    | false =>
      obtain ⟨x, rest, hname, hx⟩ := exists_first_point h
      rw [paramPaths_dotted hname hx, paramPaths_dotted hname hx, paramPaths_append n a b,
        List.countP_cons_of_neg (by simp [h]), List.cons_append]

/-- The undotted tags are about the arguments in turn. -/
theorem position_of_mem_paramPaths {i : Nat} {e : ArgPath × Tag} (hroot : e.1 = .root i) :
    ∀ {n : Nat} {ts : List Tag}, e ∈ paramPaths (lastOf n) ts →
      n ≤ i ∧ i < n + ts.countP isUndotted
  | n, [], h => (List.not_mem_nil h).elim
  | n, t :: ts, h => by
    cases ht : isUndotted t with
    | true =>
      rw [paramPaths_undotted ht] at h
      rw [List.countP_cons_of_pos ht]
      rcases List.mem_cons.mp h with rfl | h
      · have := ArgPath.root_injective hroot
        omega
      · have := position_of_mem_paramPaths hroot h
        omega
    | false =>
      obtain ⟨x, rest, hname, hx⟩ := exists_first_point ht
      rw [paramPaths_dotted hname hx] at h
      rw [List.countP_cons_of_neg (by simp [ht])]
      rcases List.mem_cons.mp h with rfl | h
      · exact (ArgPath.child_ne_root _ _ i hroot).elim
      · exact position_of_mem_paramPaths hroot h

theorem mem_of_mem_paramPaths {e : ArgPath × Tag} :
    ∀ {top : Option Nat} {ts : List Tag}, e ∈ paramPaths top ts → e.2 ∈ ts
  | _, [], h => (List.not_mem_nil h).elim
  | top, t :: ts, h => by
    rw [paramPaths.eq_def] at h
    simp only at h
    split at h
    · rcases List.mem_cons.mp h with rfl | h
      · exact List.mem_cons_self
      · exact List.mem_cons_of_mem t (mem_of_mem_paramPaths h)
    · rcases List.mem_cons.mp h with rfl | h
      · exact List.mem_cons_self
      · exact List.mem_cons_of_mem t (mem_of_mem_paramPaths h)

/-! ## Documented parameters -/

/-- The parameter tags of a comment. -/
def paramTags (ts : List Tag) : List Tag := ts.filter (·.keyword == "param")

/-- The entries of parameter tags that follow `n` undotted ones. -/
def tagEntries (n : Nat) (ts : List Tag) : List (ArgPath × Parameter) :=
  (paramPaths (lastOf n) ts).map fun e => (e.1, parameter e.1 e.2)

theorem type_parameter (path : ArgPath) (t : Tag) : (parameter path t).type = nonEmpty t.type := by
  unfold parameter
  cases TypeExpr.shape? t.type <;> rfl

/-- What a comment documents, its parameter tags do. -/
theorem params_ofBlock (b : CommentBlock) (start stop : Nat) :
    (ofBlock b start stop).params = Table.ofList (tagEntries 0 (paramTags b.tags)) := by
  unfold ofBlock
  cases h : paramTags b.tags with
  | nil =>
    rw [paramTags] at h
    simp only [h, List.isEmpty_nil, if_true]
    split <;> rfl
  | cons t ts =>
    rw [paramTags] at h
    simp only [h, List.isEmpty_cons, Bool.false_eq_true, if_false]
    rfl

theorem tags_ofBlock (b : CommentBlock) (start stop : Nat) :
    (ofBlock b start stop).tags = b.tags := by
  simp only [ofBlock]
  split
  · split <;> rfl
  · rfl

/-- What a documentation comment documents, its parameter tags do. -/
theorem params_ofComment? {c : Source.Comment} {doc : Doc} (h : ofComment? c = some doc) :
    doc.params = Table.ofList (tagEntries 0 (paramTags doc.tags)) := by
  rw [ofComment?] at h
  split at h
  · rw [← Option.some.inj h, params_ofBlock, tags_ofBlock]
  · cases h

theorem description_ofBlock (b : CommentBlock) (start stop : Nat) :
    (ofBlock b start stop).description = descriptionOf b := by
  simp only [ofBlock]
  split
  · split <;> rfl
  · rfl

theorem paramTags_append (a b : List Tag) : paramTags (a ++ b) = paramTags a ++ paramTags b :=
  List.filter_append ..

theorem paramTags_cons {t : Tag} (h : t.keyword = "param") (ts : List Tag) :
    paramTags (t :: ts) = t :: paramTags ts :=
  List.filter_cons_of_pos (by simp [h])

theorem tagEntries_append (n : Nat) (a b : List Tag) :
    tagEntries n (a ++ b) = tagEntries n a ++ tagEntries (n + a.countP isUndotted) b := by
  rw [tagEntries, paramPaths_append, List.map_append]
  rfl

theorem tagEntries_undotted {t : Tag} (h : '.' ∉ t.name.toList) (n : Nat) (ts : List Tag) :
    tagEntries n (t :: ts) = (.root n, parameter (.root n) t) :: tagEntries (n + 1) ts := by
  rw [tagEntries, paramPaths_undotted (isUndotted_iff.mpr h), List.map_cons]
  rfl

end Doc

end CallContract
