import CallContract.Doc.Tag
import CallContract.Proofs.Prefix
import CallContract.Proofs.Text.Trim

/-!
# The text of tags

Nothing of a comment is lost on the way to its free text and its tags, and nothing comes up twice:
without their white space, the free text and the tags as they are written (`CommentBlock.text`) are
the lines of the comment without their decoration (`CommentBlock.unspaced_text`).

Trimming a line and putting a blank between two lines make no difference to a text without its white
space (`Text.unspaced`), so a tag is its line (`Tag.unspaced_text_of_ofLine?`), and what the lines
behind it add to it are these lines (`Tag.unspaced_text_extend`). The lines of a comment are then
grouped by induction (`Tag.unspaced_ofLines`).
-/

namespace CallContract

/-! ## White space -/

namespace Text

/-- A text without its white space. -/
def unspaced (s : List Char) : List Char := s.filter (!isBlank ·)

@[simp] theorem unspaced_nil : unspaced [] = [] := rfl

@[simp] theorem unspaced_append (s t : List Char) : unspaced (s ++ t) = unspaced s ++ unspaced t :=
  List.filter_append s t

theorem unspaced_cons (c : Char) (s : List Char) :
    unspaced (c :: s) = unspaced [c] ++ unspaced s :=
  unspaced_append [c] s

theorem unspaced_eq_nil {s : List Char} (h : ∀ c ∈ s, isBlank c = true) : unspaced s = [] :=
  List.filter_eq_nil_iff.mpr fun c hc => by simp [h c hc]

@[simp] theorem unspaced_trimStart (s : List Char) : unspaced (trimStart s) = unspaced s := by
  have hblank : unspaced (s.takeWhile isBlank) = [] :=
    unspaced_eq_nil fun c hc => List.mem_takeWhile_imp hc
  calc unspaced (trimStart s)
      = unspaced (s.takeWhile isBlank) ++ unspaced (s.dropWhile isBlank) := by
        rw [hblank, List.nil_append, trimStart]
    _ = unspaced s := by rw [← unspaced_append, List.takeWhile_append_dropWhile]

theorem unspaced_reverse (s : List Char) : unspaced s.reverse = (unspaced s).reverse :=
  List.filter_reverse

@[simp] theorem unspaced_trimEnd (s : List Char) : unspaced (trimEnd s) = unspaced s := by
  have hstart : unspaced (s.reverse.dropWhile isBlank) = unspaced s.reverse :=
    unspaced_trimStart s.reverse
  rw [trimEnd, unspaced_reverse, hstart, unspaced_reverse, List.reverse_reverse]

@[simp] theorem unspaced_trim (s : List Char) : unspaced (trim s) = unspaced s := by
  rw [trim, unspaced_trimEnd, unspaced_trimStart]

/-- A blank between texts makes no difference. -/
theorem unspaced_join : ∀ ps : List (List Char), unspaced (join [' '] ps) = unspaced ps.flatten
  | [] => rfl
  | [p] => by rw [join, List.flatten_singleton]
  | p :: q :: ps => by
    have hblank : unspaced [' '] = [] := rfl
    rw [join.eq_3 _ _ _ (List.cons_ne_nil q ps), unspaced_append, unspaced_append, hblank,
      List.append_nil, unspaced_join (q :: ps), List.flatten_cons (l := p), unspaced_append]

end Text

namespace Tag

open Text

/-! ## One line -/

/-- A tag as it is written. -/
def text (t : Tag) : List Char := '@' :: (t.keyword.toList ++ t.source.toList)

/-- A tag is written as its line. -/
theorem unspaced_text_of_ofLine? {line : List Char} {t : Tag} (h : ofLine? line = some t) :
    unspaced t.text = unspaced line := by
  unfold ofLine? at h
  split at h
  · rename_i c s
    obtain ⟨-, ht⟩ := Option.ite_none_right_eq_some.mp h
    obtain rfl := Option.some.inj ht
    have hrest : unspaced (s.takeWhile isKeywordChar) ++
        unspaced (trim (s.dropWhile isKeywordChar)) = unspaced s := by
      rw [unspaced_trim, ← unspaced_append, List.takeWhile_append_dropWhile]
    rw [text, ofParts, String.toList_ofList, String.toList_ofList, List.cons_append,
      unspaced_cons, unspaced_cons c, unspaced_append, hrest, ← unspaced_cons c, ← unspaced_cons]
  · cases h

/-! ## Lines behind a tag -/

/-- Empty parts add nothing. -/
theorem unspaced_spaced (parts : List (List Char)) :
    unspaced (spaced parts) = unspaced parts.flatten := by
  rw [spaced, unspaced_join, List.flatten_filter_not_isEmpty]

/-- What the lines behind a tag add to it is these lines. -/
theorem unspaced_text_extend (t : Tag) (more : List (List Char)) :
    unspaced (t.extend more).text = unspaced t.text ++ unspaced more.flatten := by
  have hsource : unspaced (continued t.source more).toList =
      unspaced t.source.toList ++ unspaced more.flatten := by
    rw [continued, String.toList_ofList, unspaced_spaced, List.flatten_cons, unspaced_append]
  calc unspaced (t.extend more).text =
        unspaced ('@' :: t.keyword.toList ++ (continued t.source more).toList) := rfl
    _ = unspaced ('@' :: t.keyword.toList ++ t.source.toList) ++ unspaced more.flatten := by
      rw [unspaced_append, hsource, unspaced_append, List.append_assoc]

/-! ## All lines -/

/-- The lines of a comment go to its free text and its tags, in their order. -/
theorem unspaced_ofLines : ∀ lines : List (List Char),
    unspaced (ofLines lines).1.flatten ++ unspaced ((ofLines lines).2.flatMap text) =
      unspaced lines.flatten
  | [] => rfl
  | line :: lines => by
    have ih := unspaced_ofLines lines
    rw [ofLines, List.flatten_cons, unspaced_append, ← ih]
    cases ht : ofLine? line with
    | none => rw [List.flatten_cons, unspaced_append, List.append_assoc]
    | some t =>
      rw [List.flatten_nil, unspaced_nil, List.nil_append, List.flatMap_cons, unspaced_append,
        unspaced_text_extend, unspaced_text_of_ofLine? ht, List.append_assoc]

end Tag

/-- A comment as it is written, but for its lines: the free text and the tags. -/
def CommentBlock.text (b : CommentBlock) : List Char :=
  b.description.toList ++ b.tags.flatMap Tag.text

/-- Without white space, a comment is written as its lines are without their decoration. -/
theorem CommentBlock.unspaced_text (text : List Char) :
    Text.unspaced (CommentBlock.ofText text).text =
      Text.unspaced ((Text.lines text).map Tag.undecorated).flatten := by
  rw [CommentBlock.text, CommentBlock.ofText, String.toList_ofList, Text.unspaced_append,
    Tag.unspaced_spaced, Tag.unspaced_ofLines]

end CallContract
