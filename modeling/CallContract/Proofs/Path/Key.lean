import CallContract.Proofs.Json.Spelling
import CallContract.Proofs.Path.Pieces
import CallContract.Proofs.Quoted
import CallContract.Proofs.Source.CutUp
import CallContract.Proofs.Source.Pattern

/-!
# Keys in paths

A key stands in a path as its `segment`. Keys that are read off a source text are `Readable` : the
segment of a name is the name, that of a quoted key without a point is what the key stands for,
and that of a quoted key with a point is the literal as it is written.

The piece of a path that is read as a readable key is not shorter than its segment
(`PropertyKey.key_ne_of_cut`) and not longer (`PropertyKey.key_ne_of_drawn`), since neither the
text of another piece nor the JSON string that it may be is the key.
-/

namespace CallContract

namespace Json.Node

/-- What starts with a quote is read as a string. -/
theorem read?_quote (s : List Char) : read? ('"' :: s) =
    (scanQuoted s).bind fun p => if skipSpace p.2 = [] then some (.string p.1) else none := by
  rw [read?_eq, cut?_eq, skipSpace_cons (by rfl)]
  simp only
  cases scanQuoted s <;> rfl

end Json.Node

namespace ArgPath

/-- A piece is read as its text, or as the text of the JSON string that it is. -/
theorem key_eq_or (s : List Char) : key s = String.ofList s ∨ ∃ p x w,
    s = '"' :: (p ++ '"' :: x) ∧ Inside '"' p ∧ Json.skipSpace x = [] ∧
      Json.unescape? p = some w ∧ key s = String.ofList w := by
  unfold key
  split
  · rename_i h
    obtain ⟨s, rfl⟩ := List.head?_eq_some_iff.mp h.2.1
    cases hkey : quotedKey? ('"' :: s) with
    | none => exact Or.inl rfl
    | some v =>
      refine Or.inr ?_
      unfold quotedKey? at hkey
      rw [Json.Node.read?_quote] at hkey
      split at hkey
      · rename_i p hp
        obtain ⟨⟨p', x⟩, hscan, hx⟩ := Option.bind_eq_some_iff.mp hp
        obtain ⟨w, hw, rfl⟩ := Option.map_eq_some_iff.mp hkey
        split at hx
        · rename_i hspace
          obtain rfl : p' = p := by simpa using hx
          obtain ⟨rfl, hinside⟩ := Json.inside_of_scanQuoted hscan
          exact ⟨p', x, w, rfl, hinside, hspace, hw, rfl⟩
        · cases hx
      · cases hkey
  · exact Or.inl rfl

end ArgPath

namespace PropertyKey

/-- The text that a key stands for; a number stands for its spelling. -/
def name : PropertyKey → String
  | ident name => name
  | number spelling => spelling
  | quoted value _ => value

/-- The segment of a key as it can be read off a source text. -/
inductive Readable (k : PropertyKey) : Prop
  | bare : k.segment = k.name → k.name.toList.head? ≠ some '"' → Readable k
  | pointless : k.segment = k.name → '.' ∉ k.name.toList → Readable k
  | literal {q : Char} {raw : List Char} : IsQuote q → k.segment.toList = q :: (raw ++ [q]) →
      Source.Decodes q raw k.name.toList → Readable k

/-- A point in a literal stands between the quotes. -/
theorem exists_of_literal_eq {q : Char} (hq : IsQuote q) {raw a t : List Char}
    (h : q :: (raw ++ [q]) = a ++ '.' :: t) : ∃ b u, a = q :: b ∧ raw = b ++ '.' :: u := by
  have hne : q ≠ '.' := by rcases hq with rfl | rfl <;> decide
  cases a with
  | nil => exact absurd (List.cons.inj h).1 hne
  | cons c b =>
    obtain ⟨rfl, htail⟩ := List.cons.inj h
    rcases List.eq_nil_or_concat t with rfl | ⟨u, d, rfl⟩
    · have hlast := (List.append_inj' htail rfl).2
      exact absurd (List.cons.inj hlast).1 hne
    · have heq : raw ++ [q] = b ++ '.' :: u ++ [d] := by simpa using htail
      exact ⟨b, u, rfl, (List.append_inj' heq rfl).1⟩

variable {k : PropertyKey}

/-- The part of the segment of a key in front of a point is not read as the key. -/
theorem key_ne_of_cut (hk : k.Readable) {a t : List Char} (h : k.segment.toList = a ++ '.' :: t) :
    ArgPath.key a ≠ k.name := by
  intro hkey
  cases hk with
  | bare hs hhead =>
    rw [hs] at h
    rcases ArgPath.key_eq_or a with ha | ⟨p, x, _, rfl, _⟩
    · rw [← hkey, ha, String.toList_ofList] at h
      simpa using congrArg List.length h
    · rw [h] at hhead
      exact hhead rfl
  | pointless hs hpoint =>
    rw [hs] at h
    exact hpoint (h ▸ List.mem_append_right a List.mem_cons_self)
  | @literal q raw hq hs hraw =>
    rw [hs] at h
    obtain ⟨b, u, rfl, rfl⟩ := exists_of_literal_eq hq h
    rcases ArgPath.key_eq_or (q :: b) with hb | ⟨p, x, _, heq, hp, _⟩
    · -- the text has a point less than the literal has
      have hcount := hraw.points
      have hne : (q == '.') = false := by rcases hq with rfl | rfl <;> rfl
      rw [← hkey, hb, String.toList_ofList, List.count_cons, hne] at hcount
      simp only [List.count_append, List.count_cons_self, Bool.false_eq_true, if_false] at hcount
      omega
    · -- the string ends before the literal does
      obtain ⟨rfl, rfl⟩ := List.cons.inj heq
      have hcut : p ++ '"' :: (x ++ '.' :: u) ++ '"' :: [] =
          p ++ '"' :: (x ++ '.' :: (u ++ ['"'])) := by simp
      have hinside := hraw.inside
      rw [List.append_assoc, List.cons_append] at hinside
      have hrest := (Inside.unique (by simp) hinside hp hcut).2
      simp at hrest

/-- The segment of a key with what follows it behind a point is not read as the key. -/
theorem key_ne_of_drawn (hk : k.Readable) (u : List Char) :
    ArgPath.key (k.segment.toList ++ '.' :: u) ≠ k.name := by
  intro hkey
  rcases ArgPath.key_eq_or (k.segment.toList ++ '.' :: u) with hs | ⟨p, x, w, heq, hp, hx, hw, hs⟩
  · -- the text is longer than the key
    rw [hs] at hkey
    have hlen := congrArg String.length hkey
    rw [String.length_ofList, List.length_append, List.length_cons, ← String.length_toList] at hlen
    cases hk with
    | bare hseg _ => rw [hseg] at hlen; omega
    | pointless hseg _ => rw [hseg] at hlen; omega
    | literal _ hseg hraw =>
      have hle := hraw.length_le
      rw [hseg, List.length_cons, List.length_append] at hlen
      omega
  · cases hk with
    | bare hseg hhead =>
      rw [hseg] at heq
      cases hname : k.name.toList with
      | nil => rw [hname] at heq; exact absurd (List.cons.inj heq).1 (by simp)
      | cons c r =>
        rw [hname] at heq hhead
        obtain ⟨rfl, _⟩ := List.cons.inj heq
        exact hhead rfl
    | pointless hseg hpoint =>
      -- the point in the piece is a point of the string
      rw [hseg] at heq
      have hmem : '.' ∈ '"' :: (p ++ '"' :: x) :=
        heq ▸ List.mem_append_right _ List.mem_cons_self
      have hx : '.' ∉ x := fun hm => absurd (List.dropWhile_eq_nil_iff.mp hx '.' hm) (by decide)
      have hp : '.' ∈ p := by simpa [hx] using hmem
      rw [← hkey, hs, String.toList_ofList] at hpoint
      exact hpoint (Json.point_of_unescape? hw hp)
    | @literal q raw hq hseg hraw =>
      -- the string ends where the literal does, and more follows
      rw [hseg, List.cons_append, List.append_assoc] at heq
      obtain ⟨rfl, hcut⟩ := List.cons.inj heq
      have hrest : '.' :: u = x := (Inside.unique (by simp) hraw.inside hp hcut).2
      rw [← hrest, Json.skipSpace_cons (by rfl)] at hx
      cases hx

end PropertyKey

/-! ## Keys of a source text -/

namespace Source

variable {previous : Option Lexeme} {pos n : Nat} {c : Char} {r : List Char}

theorem ne_of_operatorLexeme (o : String) :
    (∀ s, operatorLexeme o ≠ .word s) ∧ (∀ s, operatorLexeme o ≠ .number s) ∧
      ∀ s, operatorLexeme o ≠ .string s := by
  unfold operatorLexeme
  split <;> exact ⟨fun _ h => (by cases h), fun _ h => (by cases h), fun _ h => (by cases h)⟩

/-- What a lexeme that can be a key says about its spelling. -/
theorem spelling_of_lexemeAt {l : Lexeme} (h : lexemeAt previous pos c r = .ok (l, n)) :
    (∀ s, l = .word s ∨ l = .number s → s.toList.head? ≠ some '"') ∧
      ∀ s, l = .string s → IsQuote c ∧ stringBody c r = .ok (s.toList, n) := by
  have hhead : ¬(c = '"' ∨ c = '\x27') → ∀ s, (String.ofList (c :: s)).toList.head? ≠ some '"' :=
    fun hc s => by simpa using fun h => hc (Or.inl h)
  cases scanned_of_lexemeAt h with
  | string hc hbody =>
    refine ⟨fun s hs => by simp at hs, fun s hs => ⟨hc, ?_⟩⟩
    rw [← Lexeme.string.inj hs, String.toList_ofList]
    exact hbody
  | template | regex => exact ⟨fun s hs => by simp at hs, fun s hs => by cases hs⟩
  | number hc | word hc =>
    refine ⟨fun s hs => ?_, fun s hs => by cases hs⟩
    rcases hs with hs | hs <;> cases hs
    exact hhead hc _
  | @operator o =>
    obtain ⟨hword, hnumber, hstring⟩ := ne_of_operatorLexeme o
    exact ⟨fun s hs => (hs.elim (hword s) (hnumber s)).elim, fun s hs => absurd hs (hstring s)⟩

/-- The text of a token is what it spans. -/
theorem textOf_token {source pre body post : List Char} {t : Token}
    (h : source = pre ++ (body ++ post)) (hstart : t.start = width pre)
    (hstop : t.stop = width pre + width body) :
    textOf source [t] = .ok (String.ofList body) := by
  unfold textOf
  simp only [List.head?_cons, List.getLast?_singleton, hstart, hstop, h, stretch?_width]

/-- The keys of a source text are readable. -/
theorem readable_of_propertyKey {source : List Char} {l : Lexed} (hl : tokenize source = .ok l) :
    KeysOf source PropertyKey.Readable l.tokens := by
  intro t ht k hk
  obtain ⟨pre, body, post, hsource, hstart, hstop, hspells⟩ := slice_of_mem_tokens hl ht
  cases hspells with
  | @lexeme _ previous c r n hlex =>
    obtain ⟨hhead, hliteral⟩ := spelling_of_lexemeAt hlex
    unfold propertyKey at hk
    split at hk
    · rename_i s hs
      obtain rfl := Except.ok.inj hk
      exact .bare rfl (hhead s (Or.inl hs))
    · rename_i s hs
      obtain rfl := Except.ok.inj hk
      exact .bare rfl (hhead s (Or.inr hs))
    · rename_i value hs
      obtain ⟨hq, hbody⟩ := hliteral value hs
      obtain ⟨spelling, hspelling, rfl⟩ := eq_ok_of_map_eq hk
      obtain ⟨raw, rest, rfl, rfl, hraw⟩ := inside_of_stringBody hq hbody
      have hspan : (raw ++ c :: rest).take (raw.length + 1) = raw ++ [c] := by
        rw [List.take_length_add_append, List.take_succ_cons, List.take_zero]
      rw [textOf_token hsource hstart hstop, hspan] at hspelling
      obtain rfl := Except.ok.inj hspelling
      by_cases hpoint : '.' ∈ value.toList
      · refine .literal hq ?_ hraw
        simp [PropertyKey.segment, hpoint]
      · refine .pointless ?_ hpoint
        simp [PropertyKey.segment, PropertyKey.name, hpoint]
    · cases hk

end Source

end CallContract
