import CallContract.Proofs.Doc.Balanced
import CallContract.Proofs.Json.Front
import CallContract.Proofs.Json.RoundTrip
import CallContract.Proofs.Reconciliation.SameText
import Mathlib

/-!
# Documented defaults in JSON

A line `@param {type} [n=t]`, where `t` is the compact text of a JSON value, documents the value as
default of `n` exactly if brackets balance in the text as a tag sees it, and the reader takes the
text for the value (`DocumentsFirst.documentsValue_iff`). A tag does not know that a backslash takes
a quote, so a string with a quote in it may end its quoted stretch too early, and a bracket behind
the quote counts (`not_forall_documentsValue`). Without quotes in the strings of the value its
brackets balance (`Json.Value.balanced_compact`).

If brackets do not balance, the tag ends within the text or behind it, or nowhere. What it cuts off
is then neither read as the value (`Json.Node.read?_eq_none_of_spells_append`,
`Json.Node.read?_append_eq_none`) nor a string that is the value by itself
(`Json.quoted_escape_ne_append`).
-/

namespace CallContract

open Json (Value)

/-! ## Compact texts -/

namespace Text

/-- A text between two characters that are not white space. -/
theorem trimmed_between {c d : Char} (hc : isBlank c = false) (hd : isBlank d = false)
    (s : List Char) : Trimmed (c :: (s ++ [d])) where
  ne_nil := List.cons_ne_nil _ _
  head e he := by rwa [← Option.some.inj he]
  last e he := by
    rw [← List.cons_append, List.getLast?_concat] at he
    rwa [← Option.some.inj he]

end Text

/-- The characters of numerals. -/
def Numeral.IsPart (c : Char) : Prop := c.isDigit = true ∨ c ∈ ['-', '+', '.', 'e', 'E']

theorem Numeral.isPart_of_mem_text {n : Numeral} (h : n.WellFormed) :
    ∀ c ∈ n.text, IsPart c := by
  have hdigits : ∀ {ds : List Char}, IsDigits ds → ∀ c ∈ ds, IsPart c :=
    fun hds c hc => Or.inl (hds.2 c hc)
  have hsign : ∀ c ∈ if n.negative then ['-'] else [], IsPart c := by
    split
    · exact fun c hc => Or.inr (by rw [List.mem_singleton.mp hc]; decide)
    · exact fun c hc => (List.not_mem_nil hc).elim
  have hwhole : ∀ c ∈ n.whole, IsPart c := by
    rcases h.whole with hzero | ⟨hds, -⟩
    · rw [hzero]
      exact fun c hc => Or.inl (by rw [List.mem_singleton.mp hc]; rfl)
    · exact hdigits hds
  have hfraction : ∀ c ∈ fractionText n.fraction, IsPart c := by
    cases hf : n.fraction with
    | none => exact fun c hc => (List.not_mem_nil hc).elim
    | some ds =>
      rw [fractionText, List.forall_mem_cons]
      exact ⟨Or.inr (by decide), hdigits (h.fraction ds hf)⟩
  have hexponent : ∀ c ∈ exponentText n.exponent, IsPart c := by
    cases he : n.exponent with
    | none => exact fun c hc => (List.not_mem_nil hc).elim
    | some e =>
      obtain ⟨sign, ds⟩ := e
      obtain ⟨hds, hletter⟩ := h.exponent _ he
      rw [exponentText, List.forall_mem_cons, List.forall_mem_append]
      refine ⟨Or.inr (by decide), fun c hc => ?_, hdigits hds⟩
      rcases hletter c (Option.mem_toList.mp hc) with rfl | rfl
      · exact Or.inr (by decide)
      · exact Or.inr (by decide)
  rw [text]
  simp only [List.forall_mem_append]
  exact ⟨⟨⟨hsign, hwhole⟩, hfraction⟩, hexponent⟩

theorem Numeral.IsPart.isBlank_eq_false {c : Char} (h : IsPart c) : Text.isBlank c = false := by
  rcases h with h | h
  · exact Text.isBlank_of_isDigit h
  · have hmarks : ∀ c ∈ ['-', '+', '.', 'e', 'E'], Text.isBlank c = false :=
      List.forall_iff_forall_mem.mp (by decide)
    exact hmarks c h

theorem Numeral.IsPart.plain {c : Char} (h : IsPart c) : Tag.Plain '[' ']' c := by
  rcases h with h | h
  · have hother : ∀ d ∈ ['"', '\x27', '\x60', '[', ']'], c ≠ d := by
      rintro d hd rfl
      have hdigit : ∀ d ∈ ['"', '\x27', '\x60', '[', ']'], d.isDigit = false :=
        List.forall_iff_forall_mem.mp (by decide)
      rw [hdigit c hd] at h
      cases h
    refine ⟨?_, hother '[' (by decide), hother ']' (by decide)⟩
    simp only [Tag.isQuote, Bool.or_eq_false_iff, decide_eq_false_iff_not]
    exact ⟨⟨hother _ (by decide), hother _ (by decide)⟩, hother _ (by decide)⟩
  · have hmarks : ∀ c ∈ ['-', '+', '.', 'e', 'E'], Tag.Plain '[' ']' c :=
      List.forall_iff_forall_mem.mp (by decide)
    exact hmarks c h

namespace Json

theorem eq_of_mem_escapeChar {c d : Char} (hc : c = '"' ∨ c = ']') (h : c ∈ escapeChar d) :
    c = d := by
  by_cases hquote : d = '"'
  · subst hquote
    rcases hc with rfl | rfl
    · rfl
    · exact absurd h (by decide)
  by_cases hback : d = '\\'
  · subst hback
    rcases hc with rfl | rfl <;> exact absurd h (by decide)
  by_cases hcontrol : d.toNat < 32
  · have hnone : ∀ n : Fin 32, '"' ∉ escapeChar (Char.ofNat n) ∧
        ']' ∉ escapeChar (Char.ofNat n) := by decide +kernel
    have hmem := hnone ⟨d.toNat, hcontrol⟩
    rw [Char.ofNat_toNat] at hmem
    rcases hc with rfl | rfl
    · exact absurd h hmem.1
    · exact absurd h hmem.2
  · have hself : escape [d] = [d] := escape_eq_self <| List.forall_mem_singleton.mpr
      ⟨hquote, hback, by omega⟩
    rw [escape, List.flatMap_singleton] at hself
    rw [hself] at h
    exact List.mem_singleton.mp h

/-- A quote or a bracket is there between quotes only if it is there without them. -/
theorem mem_of_mem_escape {c : Char} {s : List Char} (hc : c = '"' ∨ c = ']')
    (h : c ∈ escape s) : c ∈ s := by
  obtain ⟨d, hd, hmem⟩ := List.mem_flatMap.mp h
  rwa [eq_of_mem_escapeChar hc hmem]

theorem length_le_escape : ∀ s : List Char, s.length ≤ (escape s).length
  | [] => Nat.le_refl 0
  | c :: s => by
    have ih := length_le_escape s
    have hc : 0 < (escapeChar c).length := by
      unfold escapeChar
      split_ifs <;> simp
    rw [escape] at ih
    rw [escape, List.flatMap_cons, List.length_append, List.length_cons]
    omega

/-- No string is the front of its own text if there is a bracket behind it. -/
theorem quoted_escape_ne_append {s t : List Char} (ht : ']' ∈ t) :
    Node.quoted (escape s) ≠ s ++ t := by
  intro h
  have hs : ']' ∈ s := by
    have hmem : ']' ∈ Node.quoted (escape s) := by
      rw [h]
      exact List.mem_append_right s ht
    exact mem_of_mem_escape (Or.inr rfl) (by simpa [Node.quoted] using hmem)
  -- Where the first bracket stands in the string, the text still writes what is in front of it.
  obtain ⟨p, q, rfl, hp⟩ := List.eq_append_cons_of_mem hs
  have hlength : p.length < ('"' :: escape p).length := Nat.lt_succ_of_le (length_le_escape p)
  have hfront : Node.quoted (escape (p ++ ']' :: q)) =
      ('"' :: escape p) ++ (escape (']' :: q) ++ ['"']) := by
    simp [Node.quoted, escape]
  have hget : (Node.quoted (escape (p ++ ']' :: q)))[p.length]? =
      ((p ++ ']' :: q) ++ t)[p.length]? := by rw [h]
  rw [hfront, List.getElem?_append_left hlength, List.append_assoc,
    List.getElem?_append_right (Nat.le_refl _), Nat.sub_self, List.cons_append,
    List.getElem?_cons_zero] at hget
  have hmem := List.mem_of_getElem? hget
  exact hp (mem_of_mem_escape (Or.inr rfl) (by simpa using hmem))

theorem Node.trimmed_compact {n : Node} (h : n.WellFormed) : Text.Trimmed n.compact := by
  cases n with
  | null => exact Text.trimmed_between (d := 'l') rfl rfl ['u', 'l']
  | bool b =>
    cases b with
    | false => exact Text.trimmed_between (d := 'e') rfl rfl ['a', 'l', 's']
    | true => exact Text.trimmed_between (d := 'e') rfl rfl ['r', 'u']
  | number n =>
    obtain ⟨c, s, hs, -⟩ := Numeral.text_eq_cons h
    have hne : n.text ≠ [] := by
      rw [hs]
      exact List.cons_ne_nil _ _
    have hpart := Numeral.isPart_of_mem_text h
    exact Text.trimmed_of_forall hne fun c hc => (hpart c hc).isBlank_eq_false
  | string s => exact Text.trimmed_between rfl rfl s
  | array ns => exact Text.trimmed_between rfl rfl _
  | object fs => exact Text.trimmed_between rfl rfl _

namespace Value

mutual

/-- The strings in a value, those that name fields among them. -/
def strings : Value → List String
  | .null => []
  | .bool _ => []
  | .number _ => []
  | .string s => [s]
  | .array items => itemsStrings items
  | .object fields => fieldsStrings fields

/-- The strings in items. -/
def itemsStrings : List Value → List String
  | [] => []
  | v :: vs => v.strings ++ itemsStrings vs

/-- The strings in fields. -/
def fieldsStrings : List (String × Value) → List String
  | [] => []
  | (k, v) :: fs => k :: (v.strings ++ fieldsStrings fs)

end

theorem toList_compact (v : Value) : v.compact.toList = v.node.compact := by
  rw [compact, Node.text, String.toList_ofList]
  rfl

/-- The compact text of a value is read as the value if the reader goes as deep as the value nests,
and its doubles are read back. -/
theorem read?_compact_iff {v : Value} (h : v.Proper) : read? v.node.compact = some v ↔
    v.nesting ≤ maxDepth ∧ ∀ x ∈ v.doubles, Number.ReadsBack x := by
  have hnode : Node.read? v.node.compact = some v.node :=
    Node.read?_of_spells (Node.spells_compact v.wellFormed_node)
  rw [read?, hnode, Option.bind_some]
  exact ofNode?_node_iff h

theorem balanced_quoted {s : String} (h : '"' ∉ s.toList) :
    Tag.Balanced '[' ']' (Node.quoted (escape s.toList)) :=
  .of_quoted rfl fun hmem => h (mem_of_mem_escape (Or.inl rfl) hmem)

mutual

theorem balanced_compact : ∀ {v : Value}, (∀ s ∈ v.strings, '"' ∉ s.toList) →
    Tag.Balanced '[' ']' v.node.compact
  | .null, _ => .of_plain (s := ['n', 'u', 'l', 'l']) (List.forall_iff_forall_mem.mp (by decide))
  | .bool true, _ =>
    .of_plain (s := ['t', 'r', 'u', 'e']) (List.forall_iff_forall_mem.mp (by decide))
  | .bool false, _ =>
    .of_plain (s := ['f', 'a', 'l', 's', 'e']) (List.forall_iff_forall_mem.mp (by decide))
  | .number n, _ => .of_plain fun c hc =>
    (Numeral.isPart_of_mem_text n.wellFormed_numeral c hc).plain
  | .string s, h => balanced_quoted (h s (List.mem_singleton_self s))
  | .array items, h => .nested (balanced_compactItems h) .nil
  | .object fields, h => .plain (by decide)
    ((balanced_compactFields h).append (.plain (by decide) .nil))

theorem balanced_compactItems : ∀ {vs : List Value}, (∀ s ∈ itemsStrings vs, '"' ∉ s.toList) →
    Tag.Balanced '[' ']' (Node.compactItems (nodes vs))
  | [], _ => .nil
  | [v], h => balanced_compact fun s hs => h s (List.mem_append_left _ hs)
  | v :: w :: vs, h => by
    have hv := balanced_compact fun s hs => h s (List.mem_append_left _ hs)
    have hvs := balanced_compactItems fun s hs => h s (List.mem_append_right v.strings hs)
    exact hv.append (.plain (by decide) hvs)

theorem balanced_compactFields : ∀ {fs : List (String × Value)},
    (∀ s ∈ fieldsStrings fs, '"' ∉ s.toList) →
      Tag.Balanced '[' ']' (Node.compactFields (fieldNodes fs))
  | [], _ => .nil
  | [(k, v)], h => by
    obtain ⟨hk, h⟩ := List.forall_mem_cons.mp h
    have hv := balanced_compact fun s hs => h s (List.mem_append_left _ hs)
    exact (balanced_quoted hk).append (.plain (by decide) hv)
  | (k, v) :: f :: fs, h => by
    obtain ⟨hk, h⟩ := List.forall_mem_cons.mp h
    have hv := balanced_compact fun s hs => h s (List.mem_append_left _ hs)
    have hfs := balanced_compactFields fun s hs => h s (List.mem_append_right v.strings hs)
    exact (balanced_quoted hk).append (.plain (by decide) (hv.append (.plain (by decide) hfs)))

end

end Value

end Json

/-! ## The tag of a line -/

namespace Tag

open Text

variable {type n t : List Char}

theorem append_of_enclosed? {opener closer : Char} {depth : Nat} {quote : Option Char}
    {s inside rest : List Char} (h : enclosed? opener closer depth quote s = some (inside, rest)) :
    s = inside ++ closer :: rest := by
  -- But where it ends, a character is put in front of what is left.
  fun_induction enclosed? opener closer depth quote s generalizing inside with
  | case1 => cases h
  | case5 =>
    obtain ⟨rfl, rfl⟩ := Prod.mk.inj (Option.some.inj h)
    rfl
  | case2 _ _ _ _ ih | case3 _ _ _ _ ih | case4 _ _ _ ih | case6 _ _ _ _ _ ih
  | case7 _ _ _ _ _ _ ih =>
    obtain ⟨⟨x, y⟩, hx, heq⟩ := Option.map_eq_some_iff.mp h
    obtain ⟨rfl, rfl⟩ := Prod.mk.inj heq
    rw [ih hx, List.cons_append]

/-- What the brackets say behind plain characters. -/
theorem namePart_front (hn : ∀ c ∈ n, Plain '[' ']' c) (hequals : '=' ∉ n) (htrim : trim n = n)
    (s : List Char) : namePart ('[' :: (n ++ '=' :: s)) =
      match enclosed? '[' ']' 0 none s with
      | some (d, rest) => (⟨n, some (trim d), true⟩, trimStart rest)
      | none => (⟨[], none, false⟩, '[' :: (n ++ '=' :: s)) := by
  have hstarts : startsWith ['['] ('[' :: (n ++ '=' :: s)) = true := rfl
  have hplain : ∀ c ∈ n ++ ['='], Plain '[' ']' c :=
    List.forall_mem_append.mpr ⟨hn, List.forall_mem_singleton.mpr ⟨rfl, by decide, by decide⟩⟩
  have hfront := (Balanced.of_plain hplain).enclosed?_append rfl rfl (by decide) 0 s
  rw [List.append_assoc, List.singleton_append] at hfront
  rw [namePart, if_pos hstarts, bracketed?, if_pos rfl, hfront]
  cases enclosed? '[' ']' 0 none s with
  | none => rfl
  | some p =>
    obtain ⟨d, rest⟩ := p
    have htext : trim (n ++ ['='] ++ d) = n ++ '=' :: trimEnd d := by
      rw [List.append_assoc, List.singleton_append, trim, trimStart_append_cons rfl,
        trimStart_eq_self htrim, trimEnd_append_cons rfl]
    simp only [Option.map_some, htext, Naming.ofBracketed, splitFirst_append hequals, htrim,
      trim_trimEnd]

/-- The tag of the line, whatever is cut off as default. -/
theorem exists_ofLine?_defaultLine (htype : Closes '\x7b' '\x7d' type) (rest : List Char) :
    ∃ tag naming, naming = (namePart ('[' :: (n ++ '=' :: (t ++ ']' :: trimEnd rest)))).1 ∧
      ofLine? (defaultLine type n t rest) = some tag ∧ tag.keyword = "param" ∧
        tag.name = String.ofList naming.name ∧ tag.isOptional = naming.isOptional ∧
          tag.default = naming.default.map String.ofList := by
  have hstart : ∀ s, trimStart (' ' :: '[' :: s) = '[' :: s := fun _ => rfl
  refine ⟨_, _, rfl, ofLine?_eq_ofParts type n t rest, rfl, ?_⟩
  simp only [ofParts, typePart_append htype, hstart]
  exact ⟨trivial, trivial, trivial⟩

end Tag

/-! ## What a cut text says -/

section

variable {v : Value} {d r rest : List Char}

theorem Text.ends_append {b : List Char} (hb : ∀ c ∈ b, isBlank c = true) (s : List Char) :
    Numeral.Ends (b ++ ']' :: s) := by
  cases b with
  | nil => exact Json.Node.ends_cons (Or.inr (Or.inr (Or.inl rfl))) s
  | cons c b =>
    intro e he
    rw [← Option.some.inj he]
    have hpart : ¬Numeral.IsPart c := fun hpart => by
      have := hpart.isBlank_eq_false
      rw [hb c List.mem_cons_self] at this
      cases this
    refine ⟨?_, ?_, ?_, ?_⟩
    · exact Bool.eq_false_iff.mpr fun hdigit => hpart (Or.inl hdigit)
    all_goals
      rintro rfl
      exact hpart (Or.inr (by decide))

/-- A text that is not read as JSON is taken as it stands, and documents no value but this
string. -/
theorem Doc.defaultValue?_ne_some {s : List Char} (hread : Value.read? s = none)
    (hstring : v ≠ .string (String.ofList s)) (hs : Text.trim s = s) :
    defaultValue? (String.ofList s) ≠ some v := by
  rcases Text.trim_eq_self_iff.mp hs with rfl | hs
  · exact fun h => by cases h
  · rw [defaultValue?_of_trimmed hs, written, hread]
    exact fun h => hstring (Option.some.inj h).symm

theorem Json.Value.read?_eq_none {s : List Char} (h : Node.read? s = none) : read? s = none := by
  rw [read?, h]
  rfl

theorem Json.Value.compact_string (x : String) :
    (Value.string x).node.compact = Node.quoted (escape x.toList) := rfl

/-- A string is shorter than its text. -/
theorem Json.Value.ne_string_of_append {s t : List Char} (h : s = v.node.compact ++ t) :
    v ≠ .string (String.ofList s) := by
  intro hv
  have hlength := congrArg List.length h
  have hle := length_le_escape s
  rw [hv, compact_string, Node.quoted, String.toList_ofList, List.length_append, List.length_cons,
    List.length_append] at hlength
  omega

/-- What is cut off the text of a value, the bracket and more is documented as the value exactly if
it is the text and the reader takes the text for the value. -/
theorem Doc.defaultValue?_cut (hcut : v.node.compact ++ ']' :: rest = d ++ ']' :: r) :
    defaultValue? (String.ofList (Text.trim d)) = some v ↔
      d = v.node.compact ∧ Value.read? v.node.compact = some v := by
  have hwell := v.wellFormed_node
  have htrimmed := Json.Node.trimmed_compact hwell
  have hspells := Json.Node.spells_compact hwell
  have hwhole (h : defaultValue? (String.ofList v.node.compact) = some v) :
      Value.read? v.node.compact = some v := by
    cases hread : Value.read? v.node.compact with
    | none =>
      have hne := Value.ne_string_of_append (List.append_nil v.node.compact).symm
      exact absurd h (defaultValue?_ne_some hread hne htrimmed.trim_eq)
    | some w => rwa [defaultValue?_of_trimmed htrimmed, written, hread] at h
  constructor
  · intro h
    rcases List.append_eq_append_iff.mp hcut with ⟨_ | ⟨c, b⟩, hd, hrest⟩ | ⟨_ | ⟨c, b⟩, ht, hr⟩
    · rw [List.append_nil] at hd
      rw [hd, htrimmed.trim_eq] at h
      exact ⟨hd, hwhole h⟩
    · -- More than the text : there is something behind the value.
      obtain ⟨rfl, -⟩ := List.cons.inj hrest
      have htrim : Text.trim d = v.node.compact ++ ']' :: Text.trimEnd b := by
        rw [hd, Text.trim, Text.trimStart_append_cons rfl, htrimmed.trimStart_eq,
          Text.trimEnd_append_cons rfl]
      have hends : Numeral.Ends (']' :: Text.trimEnd b) := Text.ends_append (b := []) (by simp) _
      have hread := Value.read?_eq_none
        (Json.Node.read?_append_eq_none hspells hends (List.cons_ne_nil _ _))
      rw [htrim] at h
      refine absurd h (defaultValue?_ne_some hread (Value.ne_string_of_append rfl) ?_)
      rw [← htrim, Text.trim_trim]
    · rw [List.append_nil] at ht
      rw [← ht, htrimmed.trim_eq] at h
      exact ⟨ht.symm, hwhole h⟩
    · -- A front of the text : it is neither read nor a string with this text.
      obtain ⟨rfl, -⟩ := List.cons.inj hr
      obtain ⟨w, hw, hblank⟩ := Text.exists_trimEnd_append d
      have htrim : Text.trim d = Text.trimEnd d := by
        rw [Text.trim, Text.Trimmed.trimStart_of_append (ht ▸ htrimmed)]
      have htext : v.node.compact = Text.trimEnd d ++ (w ++ ']' :: b) := by
        rw [← List.append_assoc, ← hw]
        exact ht
      have hread := Value.read?_eq_none (Json.Node.read?_eq_none_of_spells_append (htext ▸ hspells)
        (Text.ends_append hblank b) (by simp))
      rw [htrim] at h
      refine absurd h (defaultValue?_ne_some hread (fun hv => ?_) ?_)
      · rw [hv, Value.compact_string, String.toList_ofList] at htext
        exact Json.quoted_escape_ne_append (by simp) htext
      · rw [← htrim, Text.trim_trim]
  · rintro ⟨rfl, hread⟩
    rw [htrimmed.trim_eq, defaultValue?_of_trimmed htrimmed, written, hread]
    rfl

end

/-! ## The documented parameter -/

/-- The first tag of a comment that documents an argument stands in a line with `[n=t]`. -/
structure DocumentsFirst (c : Source.Comment) (type n t : List Char) : Prop where
  block : c.isBlock = true
  star : Text.startsWith ['*'] c.text.toList = true
  line : ∃ above rest below, (Text.lines c.text.toList).map Tag.undecorated =
      above ++ Tag.defaultLine type n t rest :: below ∧
    (Doc.paramTags (Tag.ofLines above).2).countP Doc.isUndotted = 0
  type : Tag.Closes '\x7b' '\x7d' type
  plain : ∀ c ∈ n, Tag.Plain '[' ']' c
  equals : '=' ∉ n
  undotted : '.' ∉ n
  trimmed : Text.trim n = n

/-- The comment documents a first argument `n` that may be left out and is then `v`. -/
def DocumentsValue (c : Source.Comment) (n : List Char) (v : Value) : Prop :=
  ∃ doc p, Doc.ofComment? c = some doc ∧ doc.params.find? (.root 0) = some p ∧
    p.name = String.ofList n ∧ p.path = .root 0 ∧ p.isOptional = some true ∧ p.default = some v

theorem documentsValue_iff_of_find? {c : Source.Comment} {n : List Char} {v : Value} {doc : Doc}
    {p : Parameter} (hdoc : Doc.ofComment? c = some doc)
    (hp : doc.params.find? (.root 0) = some p) (hpath : p.path = .root 0) :
    DocumentsValue c n v ↔
      p.name = String.ofList n ∧ p.isOptional = some true ∧ p.default = some v := by
  constructor
  · rintro ⟨doc', q, hdoc', hq, hname, -, hoptional, hdefault⟩
    obtain rfl := Option.some.inj (hdoc.symm.trans hdoc')
    obtain rfl := Option.some.inj (hp.symm.trans hq)
    exact ⟨hname, hoptional, hdefault⟩
  · rintro ⟨hname, hoptional, hdefault⟩
    exact ⟨doc, p, hdoc, hp, hname, hpath, hoptional, hdefault⟩

namespace DocumentsFirst

variable {c : Source.Comment} {type n t : List Char} {v : Value}

theorem exists_find?_params (h : DocumentsFirst c type n t) : ∃ doc p rest naming,
    Doc.ofComment? c = some doc ∧ doc.params.find? (.root 0) = some p ∧
      naming = (Tag.namePart ('[' :: (n ++ '=' :: (t ++ ']' :: rest)))).1 ∧
        p.name = String.ofList naming.name ∧ p.path = .root 0 ∧
          p.isOptional = some naming.isOptional ∧
            p.default = (naming.default.map String.ofList).bind Doc.defaultValue? := by
  obtain ⟨above, rest, below, hlines, hi⟩ := h.line
  obtain ⟨tag, naming, hnaming, htag, hkeyword, hname, hoptional, hdefault⟩ :=
    Tag.exists_ofLine?_defaultLine (n := n) (t := t) h.type rest
  obtain ⟨doc, hdoc⟩ : ∃ doc, Doc.ofComment? c = some doc :=
    ⟨_, if_pos (by rw [h.block, h.star]; rfl)⟩
  have hundotted : '.' ∉ tag.name.toList := by
    rw [hname, hnaming, Tag.namePart_front h.plain h.equals h.trimmed, String.toList_ofList]
    split
    · exact h.undotted
    · exact List.not_mem_nil
  have hfind := Doc.find?_params_of_line hdoc hlines htag hkeyword hundotted hi
  refine ⟨doc, _, Text.trimEnd rest, naming, hdoc, hfind, hnaming, ?_⟩
  rw [← hname, ← hoptional, ← hdefault, Doc.parameter]
  cases TypeExpr.shape? (tag.extend (Tag.ofLines below).1).type with
  | none => exact ⟨rfl, rfl, rfl, rfl⟩
  | some e => exact ⟨rfl, rfl, rfl, rfl⟩

/-- The default `[n=v]` of the first argument, `v` being written as compact JSON, is documented
exactly if brackets balance in the text as they count in a tag, and the reader takes the text for
the value : it nests no deeper than the reader goes, and its doubles are read back. The brackets
balance if there is no quote in the strings of the value. -/
theorem documentsValue_iff (h : DocumentsFirst c type n v.compact.toList) (hv : v.Proper) :
    (DocumentsValue c n v ↔ Tag.Balanced '[' ']' v.compact.toList ∧
      v.nesting ≤ Value.maxDepth ∧ ∀ x ∈ v.doubles, Json.Number.ReadsBack x) ∧
    ((∀ s ∈ v.strings, '"' ∉ s.toList) → Tag.Balanced '[' ']' v.compact.toList) := by
  obtain ⟨doc, p, rest, naming, hdoc, hp, hnaming, hname, hpath, hoptional, hdefault⟩ :=
    h.exists_find?_params
  rw [Tag.namePart_front h.plain h.equals h.trimmed, Value.toList_compact] at hnaming
  rw [documentsValue_iff_of_find? hdoc hp hpath, hname, hoptional, hdefault,
    ← Value.read?_compact_iff hv, Value.toList_compact]
  refine ⟨⟨?_, ?_⟩, Value.balanced_compact⟩
  · rintro ⟨-, hbrackets, hdocumented⟩
    cases hcut : Tag.enclosed? '[' ']' 0 none (v.node.compact ++ ']' :: rest) with
    | none =>
      have hnone : naming = ⟨[], none, false⟩ := by rw [hnaming, hcut]
      rw [hnone] at hbrackets
      cases hbrackets
    | some e =>
      obtain ⟨d, r⟩ := e
      have hsome : naming = ⟨n, some (Text.trim d), true⟩ := by rw [hnaming, hcut]
      rw [hsome] at hdocumented
      obtain ⟨rfl, hvalue⟩ := (Doc.defaultValue?_cut (Tag.append_of_enclosed? hcut)).mp hdocumented
      have hunwinds : Tag.Unwinds '[' ']' 0 v.node.compact := Tag.unwinds_of_enclosed? hcut
      exact ⟨hunwinds, hvalue⟩
  · rintro ⟨hbalanced, hvalue⟩
    have hcut := hbalanced.closes rfl rfl (by decide) rest
    have hsome : naming = ⟨n, some (Text.trim v.node.compact), true⟩ := by rw [hnaming, hcut]
    have hsays := (Doc.defaultValue?_cut (r := rest) rfl).mpr ⟨rfl, hvalue⟩
    rw [hsome]
    simp only [Option.map_some, Option.bind_some]
    exact ⟨trivial, trivial, hsays⟩

end DocumentsFirst

/-- A comment that consists of a line with the default. -/
theorem documentsFirst_of_line {c : Source.Comment} {t : List Char} (rest : List Char)
    (hblock : c.isBlock = true)
    (hstar : Text.startsWith ['*'] c.text.toList = true)
    (hline : (Text.lines c.text.toList).map Tag.undecorated =
      [Tag.defaultLine ['T'] ['n'] t rest]) : DocumentsFirst c ['T'] ['n'] t where
  block := hblock
  star := hstar
  line := ⟨[], rest, [], hline, rfl⟩
  type := Tag.closes_of_plain rfl (by decide) (List.forall_iff_forall_mem.mp (by decide))
  plain := List.forall_iff_forall_mem.mp (by decide)
  equals := by decide
  undotted := by decide
  trimmed := by decide

/-- A value with brackets in a string and in the name of a field. -/
def bracketValue : Value := .array [.string "a]b", .object [("[", .null)]]

/-- A comment with this value as default. -/
def bracketComment : Source.Comment where
  text := "* @param \x7bT\x7d [n=[\"a]b\",\x7b\"[\":null\x7d]] text "
  isBlock := true
  start := 0
  stop := 46

theorem DocumentsFirst.documentsValue_iff_brackets :
    DocumentsFirst bracketComment ['T'] ['n'] bracketValue.compact.toList ∧ bracketValue.Proper ∧
      DocumentsValue bracketComment ['n'] bracketValue := by
  have htext : bracketValue.node.compact = "[\"a]b\",\x7b\"[\":null\x7d]".toList := by cbv
  have hline : (Text.lines bracketComment.text.toList).map Tag.undecorated =
      ["@param \x7bT\x7d [n=[\"a]b\",\x7b\"[\":null\x7d]] text".toList] := by cbv
  have hfirst : DocumentsFirst bracketComment ['T'] ['n'] bracketValue.compact.toList := by
    rw [Value.toList_compact, htext]
    exact documentsFirst_of_line " text".toList rfl (by cbv) hline
  have hproper : bracketValue.Proper :=
    ⟨trivial, ⟨List.pairwise_singleton _ _, trivial, trivial⟩, trivial⟩
  obtain ⟨hiff, hbalanced⟩ := documentsValue_iff hfirst hproper
  have hstrings : ∀ s ∈ bracketValue.strings, '"' ∉ s.toList := by
    have hnone : ∀ s ∈ ["a]b", "["], '"' ∉ s.toList := List.forall_iff_forall_mem.mp (by decide)
    exact hnone
  have hdoubles : ∀ x ∈ bracketValue.doubles, Json.Number.ReadsBack x :=
    fun x hx => (List.not_mem_nil hx).elim
  exact ⟨hfirst, hproper, hiff.mpr ⟨hbalanced hstrings, by decide, hdoubles⟩⟩

/-- A string with a quote and a bracket behind it. -/
def quoteValue : Value := .string "\"]"

/-- A comment with this string as default. -/
def quoteComment : Source.Comment where
  text := "* @param \x7bT\x7d [n=\"\\\"]\"] text "
  isBlock := true
  start := 0
  stop := 31

/-- The quote that is written with a backslash ends the quoted stretch for the tag, and the bracket
behind it ends the default. -/
theorem not_forall_documentsValue : ¬∀ (c : Source.Comment) (type n : List Char) (v : Value),
    DocumentsFirst c type n v.compact.toList → v.Proper → v.nesting ≤ Value.maxDepth →
      (∀ x ∈ v.doubles, Json.Number.ReadsBack x) → DocumentsValue c n v := by
  intro h
  have htext : quoteValue.node.compact = "\"\\\"]\"".toList := by cbv
  have hline : (Text.lines quoteComment.text.toList).map Tag.undecorated =
      ["@param \x7bT\x7d [n=\"\\\"]\"] text".toList] := by cbv
  have hfirst : DocumentsFirst quoteComment ['T'] ['n'] quoteValue.compact.toList := by
    rw [Value.toList_compact, htext]
    exact documentsFirst_of_line " text".toList rfl (by cbv) hline
  obtain ⟨doc, p, hdoc, hp, -, -, -, hdefault⟩ :=
    h _ _ _ quoteValue hfirst trivial (Nat.zero_le _) fun x hx => (List.not_mem_nil hx).elim
  have hrun : (Doc.ofComment? quoteComment).bind (fun doc =>
      (doc.params.find? (.root 0)).bind Parameter.default) = some (.string "\"\\\"") := by cbv
  rw [hdoc, Option.bind_some, hp, Option.bind_some, hdefault] at hrun
  have := Value.string.inj (Option.some.inj hrun)
  exact absurd this (by decide)

end CallContract
