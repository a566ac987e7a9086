import CallContract.Proofs.Doc.Balanced
import CallContract.Proofs.Path.Above
import CallContract.Proofs.Path.Locate
import Mathlib

/-!
# Written tags

A tag is written on one line as a keyword, a type in braces, a name and a description
(`Tag.Written.line`). The name stands bare or in brackets, there with a default or without
(`Tag.NameForm`). If the type balances its braces, a bracketed name its brackets, and no part is
mistaken for another (`Tag.Written.WellFormed`), the line is read as the tag with these parts
(`Tag.Written.ofLine?_line`), and so is a comment that consists of the line.

Each part is cut off the front of what the part before it has left : the type at the brace that
closes (`typePart_append`), the name at the bracket that closes or at a blank
(`Tag.NameForm.namePart_text`), and what is behind is the description.
-/

namespace CallContract

/-- A text without line breaks is one line. -/
theorem Text.lines_of_not_mem {s : List Char} (hne : s ≠ []) (h : '\n' ∉ s) : lines s = [s] := by
  simp [lines, pieces_of_not_mem h, hne]

namespace Tag

open Text

/-- A tag that no lines follow is left as it is. -/
theorem extend_nil (t : Tag) : t.extend [] = t := by
  have hcontinued : ∀ s : String, continued s [] = s := fun s => by
    cases hs : s.toList with
    | nil => rw [continued, hs, ← String.ofList_toList (s := s), hs]; rfl
    | cons c r => rw [continued, hs, ← String.ofList_toList (s := s), hs]; rfl
  rw [extend, hcontinued, hcontinued]

/-! ## Names -/

/-- How a tag names what it is about. -/
inductive NameForm where
  | bare (name : List Char)
  | bracketed (name : List Char)
  | withDefault (name value : List Char)

namespace NameForm

/-- The name as it is written. -/
def text : NameForm → List Char
  | bare n => n
  | bracketed n => '[' :: (n ++ [']'])
  | withDefault n v => '[' :: (n ++ '=' :: (v ++ [']']))

/-- What the name says. -/
def naming : NameForm → Naming
  | bare n => ⟨n, none, false⟩
  | bracketed n => ⟨n, none, true⟩
  | withDefault n v => ⟨n, some v, true⟩

/-- A bare name is one word that does not start with a bracket. In brackets, name and default have
no blanks around them, there is no equals sign in the name, and brackets balance. -/
def WellFormed : NameForm → Prop
  | bare n => n ≠ [] ∧ (∀ c ∈ n, isBlank c = false) ∧ n.head? ≠ some '['
  | bracketed n => trim n = n ∧ '=' ∉ n ∧ Balanced '[' ']' n
  | withDefault n v => trim n = n ∧ '=' ∉ n ∧ trim v = v ∧ Balanced '[' ']' (n ++ '=' :: v)

variable {f : NameForm}

/-- A name does not start with white space. -/
theorem WellFormed.trimStart_text (h : f.WellFormed) (s : List Char) :
    trimStart (f.text ++ s) = f.text ++ s := by
  cases f with
  | bare n =>
    obtain ⟨hne, hblank, -⟩ := h
    obtain ⟨c, n, rfl⟩ := List.exists_cons_of_ne_nil hne
    exact List.dropWhile_cons_of_neg (by simp [hblank c List.mem_cons_self])
  | bracketed n => rfl
  | withDefault n v => rfl

/-- A name does not end in white space. -/
theorem WellFormed.trimEnd_append (h : f.WellFormed) (a s : List Char) :
    trimEnd (a ++ (f.text ++ s)) = a ++ (f.text ++ trimEnd s) := by
  obtain ⟨n, c, htext, hc⟩ : ∃ n c, f.text = n ++ [c] ∧ isBlank c = false := by
    cases f with
    | bare n =>
      obtain ⟨hne, hblank, -⟩ := h
      obtain ⟨m, c, rfl⟩ := List.eq_nil_or_concat n |>.resolve_left hne
      exact ⟨m, c, List.concat_eq_append, hblank c (by simp)⟩
    | bracketed n => exact ⟨'[' :: n, ']', rfl, rfl⟩
    | withDefault n v => exact ⟨'[' :: (n ++ '=' :: v), ']', by simp [text], rfl⟩
  have hend := trimEnd_append_cons hc (a ++ n) s
  simpa [htext] using hend

/-- A name is cut off what is behind it, if that starts with white space or is empty. -/
theorem WellFormed.namePart_text (h : f.WellFormed) {s : List Char}
    (hs : ∀ c ∈ s.head?, isBlank c = true) :
    namePart (f.text ++ s) = (f.naming, trimStart s) := by
  cases f with
  | bare n =>
    obtain ⟨hne, hblank, hbracket⟩ := h
    obtain ⟨c, n, rfl⟩ := List.exists_cons_of_ne_nil hne
    have hbehind : s.takeWhile (!isBlank ·) = [] ∧ s.dropWhile (!isBlank ·) = s := by
      cases s with
      | nil => exact ⟨rfl, rfl⟩
      | cons d s => simp [hs d rfl]
    have hword : ∀ d ∈ c :: n, (!isBlank d) = true := fun d hd => by simp [hblank d hd]
    have hstarts : startsWith ['['] (c :: n ++ s) = false := by
      have hc : '[' ≠ c := fun heq => hbracket (by rw [heq]; rfl)
      simp [startsWith, afterStart?, hc]
    rw [text, namePart, hstarts, List.takeWhile_append_of_pos hword,
      List.dropWhile_append_of_pos hword, hbehind.1, hbehind.2, List.append_nil]
    rfl
  | bracketed n =>
    obtain ⟨htrim, hequals, hbalanced⟩ := h
    have hcloses := hbalanced.closes rfl rfl (by decide)
    have hnaming : Naming.ofBracketed n = ⟨n, none, true⟩ := by
      rw [Naming.ofBracketed, splitFirst_eq_none hequals]
    rw [text, List.cons_append, List.append_assoc, List.singleton_append, namePart_append hcloses,
      htrim, hnaming]
    rfl
  | withDefault n v =>
    obtain ⟨hname, hequals, hvalue, hbalanced⟩ := h
    have hcloses := hbalanced.closes rfl rfl (by decide)
    have htrim := trim_append_cons (c := '=') rfl hname hvalue
    have hnaming : Naming.ofBracketed (n ++ '=' :: v) = ⟨n, some v, true⟩ := by
      rw [Naming.ofBracketed, splitFirst_append hequals]
      simp only [hname, hvalue]
    have hpart := namePart_append hcloses s
    rw [htrim, hnaming] at hpart
    have htext : (withDefault n v).text ++ s = '[' :: (n ++ '=' :: v ++ ']' :: s) := by
      simp [text]
    rw [htext, hpart]
    rfl

end NameForm

/-! ## Lines -/

/-- A tag as it is written on one line, part by part. -/
structure Written where
  keyword : List Char
  type : List Char
  name : NameForm
  description : List Char

namespace Written

/-- What is written behind the keyword. -/
def source (w : Written) : List Char :=
  '\x7b' :: (w.type ++ '\x7d' :: ' ' :: (w.name.text ++ ' ' :: w.description))

/-- The line of a written tag. -/
def line (w : Written) : List Char := '@' :: (w.keyword ++ ' ' :: w.source)

/-- The tag with the parts that are written. -/
def tag (w : Written) : Tag where
  keyword := String.ofList w.keyword
  name := String.ofList w.name.naming.name
  type := String.ofList w.type
  description := String.ofList w.description
  default := w.name.naming.default.map String.ofList
  isOptional := w.name.naming.isOptional
  source := String.ofList (trimEnd w.source)

/-- The parts of a tag can be told apart in its line. -/
structure WellFormed (w : Written) : Prop where
  keyword : ∃ c s, w.keyword = c :: s ∧ c.isAlpha = true ∧ ∀ d ∈ s, isKeywordChar d = true
  type_trimmed : trim w.type = w.type
  type_balanced : Balanced '\x7b' '\x7d' w.type
  name : w.name.WellFormed
  description_trimmed : trim w.description = w.description
  description_dash : ¬['-', ' '] <+: w.description
  one_line : '\n' ∉ w.line

variable {w : Written}

/-- What is written behind a name is told apart from it by a blank. -/
theorem trimStart_behind (h : trim w.description = w.description) :
    trimStart (trimEnd (' ' :: w.description)) = w.description ∧
      ∀ c ∈ (trimEnd (' ' :: w.description)).head?, isBlank c = true := by
  rcases trim_eq_self_iff.mp h with hnil | htrimmed
  · rw [hnil]
    exact ⟨rfl, fun c hc => by cases hc⟩
  · have hend : trimEnd (' ' :: w.description) = ' ' :: w.description :=
      htrimmed.trimEnd_append [' ']
    have hstart := htrimmed.trimStart_eq
    rw [hend]
    refine ⟨hstart, fun c hc => ?_⟩
    rw [← Option.some.inj hc]
    rfl

/-- What is behind the keyword is read as the parts of the tag. -/
theorem WellFormed.ofParts_source (h : w.WellFormed) :
    ofParts w.keyword (trimEnd w.source) = w.tag := by
  have hcloses := h.type_balanced.closes rfl rfl (by decide)
  obtain ⟨hbehind, hblank⟩ := trimStart_behind h.description_trimmed
  have hsource : trimEnd w.source = '\x7b' :: (w.type ++ '\x7d' ::
      (' ' :: (w.name.text ++ trimEnd (' ' :: w.description)))) := by
    have hend := h.name.trimEnd_append ('\x7b' :: (w.type ++ ['\x7d', ' '])) (' ' :: w.description)
    simpa [source] using hend
  have htype : typePart (trimEnd w.source) =
      (w.type, w.name.text ++ trimEnd (' ' :: w.description)) := by
    rw [hsource, typePart_append hcloses, h.type_trimmed]
    exact congrArg (Prod.mk _) (h.name.trimStart_text _)
  have hdescription : descriptionPart w.description = w.description := by
    have hdash : afterStart? ['-', ' '] w.description = none := by
      rw [Option.eq_none_iff_forall_ne_some]
      exact fun rest hrest => h.description_dash ⟨rest, (eq_append_of_afterStart? hrest).symm⟩
    rw [descriptionPart, hdash, Option.getD_none, h.description_trimmed]
  simp only [ofParts, htype, h.name.namePart_text hblank, hbehind, hdescription]
  rfl

/-- White space around what is behind the keyword makes no difference. -/
theorem WellFormed.ofLine?_trim (h : w.WellFormed) {s : List Char}
    (hs : trim s = trimEnd w.source) : ofLine? ('@' :: (w.keyword ++ ' ' :: s)) = some w.tag := by
  obtain ⟨c, k, hkeyword, hc, hk⟩ := h.keyword
  have htake : (k ++ ' ' :: s).takeWhile isKeywordChar = k := by
    rw [List.takeWhile_append_of_pos hk, List.takeWhile_cons_of_neg (by decide), List.append_nil]
  have hdrop : (k ++ ' ' :: s).dropWhile isKeywordChar = ' ' :: s := by
    rw [List.dropWhile_append_of_pos hk, List.dropWhile_cons_of_neg (by decide)]
  have htrim : trim (' ' :: s) = trimEnd w.source := hs
  rw [hkeyword, List.cons_append, ofLine?, if_pos hc, htake, hdrop, htrim, ← hkeyword,
    h.ofParts_source]

/-- The line without the decoration of a comment. -/
theorem undecorated_line (w : Written) :
    undecorated ('*' :: ' ' :: w.line) = '@' :: (w.keyword ++ ' ' :: trimEnd w.source) := by
  have hbrace : ∀ a s, trimEnd (a ++ '\x7b' :: s) = a ++ trimEnd ('\x7b' :: s) := fun a s =>
    (trimEnd_append_cons rfl a s).trans (congrArg (a ++ ·) (trimEnd_append_cons rfl [] s).symm)
  have hline : undecorated ('*' :: ' ' :: w.line) = trimEnd w.line := rfl
  rw [hline]
  simpa [line, source] using hbrace ('@' :: (w.keyword ++ [' '])) _

/-- A written tag is read from its line as its parts say, and from a comment that consists of the
line. -/
theorem ofLine?_line (h : w.WellFormed) : ofLine? w.line = some w.tag ∧
    CommentBlock.ofText ('*' :: ' ' :: w.line) = ⟨"", [w.tag]⟩ := by
  have hline : ofLine? w.line = some w.tag := h.ofLine?_trim rfl
  have hundecorated : ofLine? (undecorated ('*' :: ' ' :: w.line)) = some w.tag := by
    rw [undecorated_line]
    exact h.ofLine?_trim (trim_trimEnd w.source)
  have hlines : lines ('*' :: ' ' :: w.line) = ['*' :: ' ' :: w.line] :=
    lines_of_not_mem (List.cons_ne_nil _ _) (by simp [h.one_line])
  refine ⟨hline, ?_⟩
  rw [CommentBlock.ofText, hlines, List.map_singleton, ofLines_cons, hundecorated]
  simp only [ofLines, extend_nil]
  rfl

/-- A tag with brackets and quotes in its type and in its default. -/
def delimiters : Written where
  keyword := "param".toList
  type := "Record<\x7bend: \"\x7d\"|'\x7b'\x7d>".toList
  name := .withDefault "options.ends".toList "[\"]\", ['a = b']]".toList
  description := "-what ends it".toList

theorem ofLine?_line_delimiters : delimiters.WellFormed ∧
    ofLine? delimiters.line = some delimiters.tag ∧
      CommentBlock.ofText ('*' :: ' ' :: delimiters.line) = ⟨"", [delimiters.tag]⟩ := by
  have htypecut : enclosed? '\x7b' '\x7d' 0 none (delimiters.type ++ ['\x7d']) =
      some (delimiters.type, []) := by cbv
  have hnamecut : enclosed? '[' ']' 0 none "options.ends=[\"]\", ['a = b']]]".toList =
      some ("options.ends=[\"]\", ['a = b']]".toList, []) := by cbv
  have htype : Unwinds '\x7b' '\x7d' 0 delimiters.type := unwinds_of_enclosed? htypecut
  have hname : Unwinds '[' ']' 0 "options.ends=[\"]\", ['a = b']]".toList :=
    unwinds_of_enclosed? hnamecut
  have h : delimiters.WellFormed :=
    { keyword := ⟨'p', "aram".toList, rfl, rfl, List.forall_iff_forall_mem.mp (by decide)⟩
      type_trimmed := by cbv
      type_balanced := htype
      name := ⟨by cbv, by decide, by cbv, hname⟩
      description_trimmed := by cbv
      description_dash := by decide
      one_line := by decide }
  exact ⟨h, ofLine?_line h⟩

end Written

end Tag

end CallContract
