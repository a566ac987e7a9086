import CallContract.Proofs.Doc.ParamPaths
import CallContract.Proofs.Text.Trim
import Mathlib

/-!
# Tags with a default

The brackets of a tag end at the first closing bracket that is neither in brackets of its own nor
between quotes. So the bracket around a text closes behind it (`Tag.Closes`) if there is nothing but
plain characters in the text, or if it is a text between quotes without that quote inside. No
backslash takes a quote here.

A line `@param {type} [name=text]` is a tag with that type, name and default
(`Tag.ofLine?_defaultLine`), and is one of the tags of its comment, between those of the lines above
and those of the lines below (`Tag.ofLines_append`).
-/

namespace CallContract.Tag

open Text

variable {opener closer q : Char} {s t : List Char}

/-! ## Brackets -/

/-- The bracket around a text closes behind it, whatever follows. -/
def Closes (opener closer : Char) (s : List Char) : Prop :=
  ∀ rest, enclosed? opener closer 0 none (s ++ closer :: rest) = some (s, rest)

/-- A character without a meaning between brackets. -/
structure Plain (opener closer c : Char) : Prop where
  quote : isQuote c = false
  opener : c ≠ opener
  closer : c ≠ closer

instance (opener closer c : Char) : Decidable (Plain opener closer c) :=
  decidable_of_iff (isQuote c = false ∧ c ≠ opener ∧ c ≠ closer)
    ⟨fun ⟨hquote, hopener, hcloser⟩ => ⟨hquote, hopener, hcloser⟩,
      fun h => ⟨h.quote, h.opener, h.closer⟩⟩

theorem enclosed?_plain {c : Char} (h : Plain opener closer c) (depth : Nat) (s : List Char) :
    enclosed? opener closer depth none (c :: s) =
      (enclosed? opener closer depth none s).map fun p => (c :: p.1, p.2) := by
  rw [enclosed?, if_neg (by simp [h.quote]), if_neg h.opener, if_neg h.closer]

theorem Closes.append : ∀ {s t : List Char}, (∀ c ∈ s, Plain opener closer c) →
    Closes opener closer t → Closes opener closer (s ++ t)
  | [], _, _, ht => ht
  | c :: s, t, hs, ht => fun rest => by
    obtain ⟨hc, hs⟩ := List.forall_mem_cons.mp hs
    rw [List.cons_append, List.cons_append, enclosed?_plain hc, append hs ht rest]
    rfl

theorem closes_nil (hquote : isQuote closer = false) (hne : closer ≠ opener) :
    Closes opener closer [] := fun rest => by
  rw [List.nil_append, enclosed?, if_neg (by simp [hquote]), if_neg hne, if_pos rfl, if_pos rfl]

/-- The bracket closes behind plain characters. -/
theorem closes_of_plain (hquote : isQuote closer = false) (hne : closer ≠ opener)
    (h : ∀ c ∈ s, Plain opener closer c) : Closes opener closer s := by
  have := Closes.append h (closes_nil hquote hne)
  rwa [List.append_nil] at this

theorem enclosed?_quoted (depth : Nat) (rest : List Char) : ∀ {s : List Char}, q ∉ s →
    enclosed? opener closer depth (some q) (s ++ q :: rest) =
      (enclosed? opener closer depth none rest).map fun p => (s ++ q :: p.1, p.2)
  | [], _ => by
    rw [List.nil_append, enclosed?, if_pos rfl]
    rfl
  | c :: s, h => by
    rw [List.mem_cons, not_or] at h
    rw [List.cons_append, enclosed?, if_neg (Ne.symm h.1), enclosed?_quoted depth rest h.2,
      Option.map_map]
    rfl

/-- The bracket closes behind a text between quotes. -/
theorem closes_of_quoted (hquote : isQuote closer = false) (hne : closer ≠ opener)
    (hq : isQuote q = true) (hs : q ∉ s) : Closes opener closer (q :: (s ++ [q])) := fun rest => by
  have hrest := closes_nil hquote hne rest
  rw [List.nil_append] at hrest
  rw [List.cons_append, List.append_assoc, List.singleton_append, enclosed?, if_pos hq,
    enclosed?_quoted 0 _ hs, hrest]
  rfl

example : Closes '[' ']' "'a]'".toList := by
  have ha : '\x27' ∉ "a]".toList := by decide
  exact closes_of_quoted rfl (by decide) rfl ha

/-! ## Lines -/

/-- The line of a parameter tag with a type, a name and the text of a default in front of `rest`. -/
def defaultLine (type name text rest : List Char) : List Char :=
  "@param \x7b".toList ++ (type ++ ("\x7d [".toList ++ (name ++ '=' :: (text ++ ']' :: rest))))

/-- The tag of such a line. -/
def ofDefault (type name text rest : List Char) : Tag where
  keyword := "param"
  name := String.ofList (trim name)
  type := String.ofList (trim type)
  description := String.ofList (descriptionPart (trimStart rest))
  default := some (String.ofList text)
  isOptional := true
  source := String.ofList ('\x7b' :: (type ++ ("\x7d [".toList ++
    (name ++ '=' :: (text ++ ']' :: rest)))))

theorem typePart_append (h : Closes '\x7b' '\x7d' s) (rest : List Char) :
    typePart ('\x7b' :: (s ++ '\x7d' :: rest)) = (trim s, trimStart rest) := by
  rw [typePart, bracketed?, if_pos rfl, h rest]

theorem namePart_append (h : Closes '[' ']' s) (rest : List Char) :
    namePart ('[' :: (s ++ ']' :: rest)) = (.ofBracketed (trim s), trimStart rest) := by
  have hstarts : startsWith ['['] ('[' :: (s ++ ']' :: rest)) = true := rfl
  rw [namePart, if_pos hstarts, bracketed?, if_pos rfl, h rest]

/-- What brackets around a name and a default say. -/
theorem ofBracketed_append {name text : List Char} (hname : '=' ∉ name) (htext : Trimmed text) :
    Naming.ofBracketed (trim (name ++ '=' :: text)) = ⟨trim name, some text, true⟩ := by
  have htrim : trim (name ++ '=' :: text) = trimStart name ++ '=' :: text := by
    have := htext.trimEnd_append (trimStart name ++ ['='])
    rw [List.append_assoc, List.singleton_append] at this
    rw [trim, trimStart_append_cons (by decide), this]
  have hstart : '=' ∉ trimStart name := fun h => hname ((List.dropWhile_sublist _).subset h)
  have htwice : trim (trimStart name) = trim name :=
    congrArg trimEnd (List.dropWhile_idempotent ..)
  simp only [htrim, Naming.ofBracketed, splitFirst_append hstart, htext.trim_eq, htwice]

/-- What is read behind the keyword of the line, without white space at its end. -/
theorem ofLine?_eq_ofParts (type name text rest : List Char) :
    ofLine? (defaultLine type name text rest) = some (ofParts "param".toList ('\x7b' ::
      (type ++ '\x7d' :: ' ' :: '[' :: (name ++ '=' :: (text ++ ']' :: trimEnd rest))))) := by
  have hstart : ∀ s, trimStart (' ' :: '\x7b' :: s) = '\x7b' :: s := fun _ => rfl
  have hend := trimEnd_append_cons (c := ']') (by decide)
    ('\x7b' :: (type ++ '\x7d' :: ' ' :: '[' :: (name ++ '=' :: text))) rest
  have hsource : trim (' ' :: '\x7b' :: (type ++ '\x7d' :: ' ' :: '[' ::
        (name ++ '=' :: (text ++ ']' :: rest)))) =
      '\x7b' ::
        (type ++ '\x7d' :: ' ' :: '[' :: (name ++ '=' :: (text ++ ']' :: trimEnd rest))) := by
    rw [trim, hstart]
    simpa only [List.append_assoc, List.cons_append] using hend
  exact congrArg (fun s => some (ofParts "param".toList s)) hsource

/-- The line is read as its tag. -/
theorem ofLine?_defaultLine {type name text : List Char} (htype : Closes '\x7b' '\x7d' type)
    (hname : ∀ c ∈ name, Plain '[' ']' c) (hequals : '=' ∉ name) (htext : Closes '[' ']' text)
    (htrim : Trimmed text) (rest : List Char) : ofLine? (defaultLine type name text rest) =
      some (ofDefault type name text (trimEnd rest)) := by
  have hequal : Plain '[' ']' '=' := ⟨rfl, by decide, by decide⟩
  have hcloses : Closes '[' ']' (name ++ '=' :: text) :=
    Closes.append hname (Closes.append (s := ['=']) (by simpa using hequal) htext)
  have hstart : ∀ s, trimStart (' ' :: '[' :: s) = '[' :: s := fun _ => rfl
  have hname := namePart_append hcloses (trimEnd rest)
  rw [List.append_assoc, List.cons_append] at hname
  rw [ofLine?_eq_ofParts, ofParts, typePart_append htype]
  simp only [hstart, hname, ofBracketed_append hequals htrim]
  rfl

theorem ofLines_cons (line : List Char) (lines : List (List Char)) : ofLines (line :: lines) =
    match ofLine? line with
    | some t => ([], t.extend (ofLines lines).1 :: (ofLines lines).2)
    | none => (line :: (ofLines lines).1, (ofLines lines).2) := rfl

/-- A tag stands between the tags of the lines above it and of those below. -/
theorem ofLines_append {line : List Char} {tag : Tag} (h : ofLine? line = some tag)
    (below : List (List Char)) : ∀ above : List (List Char), ofLines (above ++ line :: below) =
      ((ofLines above).1, (ofLines above).2 ++ tag.extend (ofLines below).1 :: (ofLines below).2)
  | [] => by
    rw [List.nil_append, ofLines_cons, h]
    rfl
  | a :: above => by
    rw [List.cons_append, ofLines_cons, ofLines_append h below above, ofLines_cons]
    split <;> rfl

end CallContract.Tag
