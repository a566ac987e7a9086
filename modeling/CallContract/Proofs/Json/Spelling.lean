import CallContract.Json.Reader
import CallContract.Proofs.Number.Written

/-!
# Texts that spell a node

`Node.Spells n s` says that `s` is a text of the node `n`, with blanks wherever the format has
room for them : behind an opening bracket, around a comma, behind a colon and before a closing
bracket. Reading gives back the node of every such text (`Node.read?_of_spells`), and both forms
in which a node is written are such texts if its strings and its numerals are well formed
(`Node.spells_compact`, `Node.spells_prettyAt`).
-/

namespace CallContract.Json

/-! ## Blanks and quoted texts -/

/-- A text of blanks only. -/
def Blanks (b : List Char) : Prop := ∀ c ∈ b, isSpace c = true

theorem blanks_nil : Blanks [] := fun _ hc => (List.not_mem_nil hc).elim

theorem skipSpace_append {b : List Char} (hb : Blanks b) (s : List Char) :
    skipSpace (b ++ s) = skipSpace s :=
  List.dropWhile_append_of_pos hb

theorem skipSpace_cons {c : Char} (hc : isSpace c = false) (s : List Char) :
    skipSpace (c :: s) = c :: s :=
  List.dropWhile_cons_of_neg (by simp [hc])

/-- The inside of a quoted text : it ends where the first quote stands that is no part of it. -/
def Closed (s : List Char) : Prop := ∀ r, scanQuoted (s ++ '"' :: r) = some (s, r)

theorem scanQuoted_escapeChar (c : Char) (r : List Char) :
    scanQuoted (escapeChar c ++ r) = (scanQuoted r).map fun p => (escapeChar c ++ p.1, p.2) := by
  unfold escapeChar
  split
  · rfl
  split
  · rfl
  split
  · rfl
  split
  · rfl
  split
  · rfl
  split
  · rfl
  split
  · rfl
  split
  · rename_i h
    have hu := hexUnit?_control ⟨c.toNat, h⟩
    simp only at hu
    simp only [List.cons_append, List.nil_append]
    rw [scanQuoted, hu]
  · rename_i hquote hback _ _ _ _ _ hcontrol
    rw [List.cons_append, List.nil_append, scanQuoted, if_neg (by simp [hback]; omega)]
    · rfl
    · exact fun h => hquote h
    · exact fun _ _ _ _ _ h _ => hback h
    · exact fun _ _ h _ => hback h

theorem closed_escape : ∀ s : List Char, Closed (escape s)
  | [], r => rfl
  | c :: s, r => by
    have ih := closed_escape s r
    rw [escape] at ih
    rw [escape, List.flatMap_cons, List.append_assoc, scanQuoted_escapeChar, ih]
    rfl

/-- Without quotes, backslashes and control characters nothing is written as an escape. -/
theorem escape_eq_self : ∀ {s : List Char}, (∀ c ∈ s, c ≠ '"' ∧ c ≠ '\\' ∧ 0x20 ≤ c.toNat) →
    escape s = s
  | [], _ => rfl
  | c :: s, h => by
    obtain ⟨⟨hquote, hback, hcontrol⟩, hs⟩ := List.forall_mem_cons.mp h
    have hne : ∀ d : Char, d.toNat < 0x20 → c ≠ d := fun d hd heq => by rw [heq] at hcontrol; omega
    have hc : escapeChar c = [c] := by
      unfold escapeChar
      rw [if_neg hquote, if_neg hback, if_neg (hne _ (by simp)), if_neg (hne _ (by simp)),
        if_neg (hne _ (by simp)), if_neg (hne _ (by simp)), if_neg (hne _ (by simp)),
        if_neg (by omega)]
    have ih := escape_eq_self hs
    rw [escape] at ih
    rw [escape, List.flatMap_cons, hc, ih]
    rfl

namespace Node

/-! ## The relation -/

mutual

/-- A text of a node, without blanks around it. -/
inductive Spells : Node → List Char → Prop
  | null : Spells .null ['n', 'u', 'l', 'l']
  | bool_true : Spells (.bool true) ['t', 'r', 'u', 'e']
  | bool_false : Spells (.bool false) ['f', 'a', 'l', 's', 'e']
  | number {n : Numeral} (h : n.WellFormed) : Spells (.number n) n.text
  | string {s : List Char} (h : Closed s) : Spells (.string s) (quoted s)
  | emptyArray : Spells (.array []) ['[', ']']
  | array {ns : List Node} {s : List Char} (h : SpellsItems ns s) : Spells (.array ns) ('[' :: s)
  | emptyObject : Spells (.object []) ['{', '}']
  | object {fs : List (List Char × Node)} {s : List Char} (h : SpellsFields fs s) :
    Spells (.object fs) ('{' :: s)

/-- A text of one or more items and the closing bracket. -/
inductive SpellsItems : List Node → List Char → Prop
  | last {n : Node} {b s c : List Char} (hb : Blanks b) (hs : Spells n s) (hc : Blanks c) :
    SpellsItems [n] (b ++ (s ++ (c ++ [']'])))
  | next {n : Node} {ns : List Node} {b s t : List Char} (hb : Blanks b) (hs : Spells n s)
    (ht : SpellsItems ns t) : SpellsItems (n :: ns) (b ++ (s ++ ',' :: t))

/-- A text of one or more fields and the closing brace. -/
inductive SpellsFields : List (List Char × Node) → List Char → Prop
  | last {k : List Char} {n : Node} {b s c d : List Char} (hb : Blanks b) (hk : Closed k)
    (hc : Blanks c) (hs : Spells n s) (hd : Blanks d) :
    SpellsFields [(k, n)] (b ++ (quoted k ++ ':' :: (c ++ (s ++ (d ++ ['}'])))))
  | next {k : List Char} {n : Node} {fs : List (List Char × Node)} {b s c t : List Char}
    (hb : Blanks b) (hk : Closed k) (hc : Blanks c) (hs : Spells n s) (ht : SpellsFields fs t) :
    SpellsFields ((k, n) :: fs) (b ++ (quoted k ++ ':' :: (c ++ (s ++ ',' :: t))))

end

/-- How a text of a node can start. -/
def isStart (c : Char) : Bool := ['n', 't', 'f', '-', '"', '[', '{'].contains c || c.isDigit

theorem isSpace_of_isStart {c : Char} (h : isStart c = true) : isSpace c = false := by
  cases hspace : isSpace c with
  | false => rfl
  | true =>
    simp only [isSpace, Bool.or_eq_true, decide_eq_true_eq] at hspace
    rcases hspace with ((rfl | rfl) | rfl) | rfl <;> cases h

theorem Spells.eq_cons {n : Node} {s : List Char} (h : Spells n s) :
    ∃ c t, s = c :: t ∧ isStart c = true := by
  cases h with
  | number hn =>
    obtain ⟨c, t, ht, hc⟩ := Numeral.text_eq_cons hn
    refine ⟨c, t, ht, ?_⟩
    rcases hc with rfl | hc
    · rfl
    · simp [isStart, hc]
  | _ => exact ⟨_, _, rfl, rfl⟩

/-! ## Reading off a text -/

/-- The node that a text starts with, and the rest. -/
def cut? (s : List Char) : Option (Node × List Char) := (scan? s).map fun p => (p.1, p.2.1)

/-- The items up to the closing bracket, and the rest. -/
def cutItems? (s : List Char) : Option (List Node × List Char) :=
  (scanItems? s).map fun p => (p.1, p.2.1)

/-- The fields up to the closing brace, and the rest. -/
def cutFields? (s : List Char) : Option (List (List Char × Node) × List Char) :=
  (scanFields? s).map fun p => (p.1, p.2.1)

theorem cut?_eq (s : List Char) : cut? s =
    match skipSpace s with
    | 'n' :: 'u' :: 'l' :: 'l' :: r => some (.null, r)
    | 't' :: 'r' :: 'u' :: 'e' :: r => some (.bool true, r)
    | 'f' :: 'a' :: 'l' :: 's' :: 'e' :: r => some (.bool false, r)
    | '"' :: r => (scanQuoted r).map fun p => (.string p.1, p.2)
    | '[' :: r =>
      match skipSpace r with
      | ']' :: t => some (.array [], t)
      | _ => (cutItems? r).map fun p => (.array p.1, p.2)
    | '{' :: r =>
      match skipSpace r with
      | '}' :: t => some (.object [], t)
      | _ => (cutFields? r).map fun p => (.object p.1, p.2)
    | t => (Numeral.scan? t).map fun p => (.number p.1, p.2) := by
  rw [cut?, scan?]
  split
  · rename_i h; simp only [h, Option.map_some]
  · rename_i h; simp only [h, Option.map_some]
  · rename_i h; simp only [h, Option.map_some]
  · rename_i h
    simp only [h]
    split <;> (rename_i hq; simp only [hq, Option.map_some, Option.map_none])
  · rename_i r h
    simp only [h]
    split
    · rename_i hc; simp only [hc, Option.map_some]
    · rename_i hn
      rw [cutItems?]
      cases scanItems? r <;> simp only [Option.map_none, Option.map_some]
  · rename_i r h
    simp only [h]
    split
    · rename_i hc; simp only [hc, Option.map_some]
    · rename_i hn
      rw [cutFields?]
      cases scanFields? r <;> simp only [Option.map_none, Option.map_some]
  · split <;> (rename_i hq; simp only [hq, Option.map_some, Option.map_none])

theorem cutItems?_eq (s : List Char) : cutItems? s =
    (cut? s).bind fun p =>
      match skipSpace p.2 with
      | ',' :: t => (cutItems? t).map fun q => (p.1 :: q.1, q.2)
      | ']' :: t => some ([p.1], t)
      | _ => none := by
  rw [cutItems?, scanItems?, cut?]
  cases scan? s with
  | none => rfl
  | some p =>
    obtain ⟨n, r, hr⟩ := p
    simp only [Option.map_some, Option.bind_some]
    split
    · rename_i t h
      simp only [h]
      rw [cutItems?]
      cases scanItems? t <;> rfl
    · rename_i h
      simp only [h, Option.map_some]
    · rename_i h₁ h₂
      split
      · exact (h₁ _ ‹_›).elim
      · exact (h₂ _ ‹_›).elim
      · rfl

theorem cutFields?_eq (s : List Char) : cutFields? s =
    match skipSpace s with
    | '"' :: k =>
      (scanQuoted k).bind fun key =>
        match skipSpace key.2 with
        | ':' :: v =>
          (cut? v).bind fun p =>
            match skipSpace p.2 with
            | ',' :: t => (cutFields? t).map fun q => ((key.1, p.1) :: q.1, q.2)
            | '}' :: t => some ([(key.1, p.1)], t)
            | _ => none
        | _ => none
    | _ => none := by
  rw [cutFields?, scanFields?]
  split
  · rename_i k h
    simp only [h]
    split
    · rename_i hq
      simp only [hq, Option.map_none, Option.bind_none]
    · rename_i key r hq
      simp only [hq, Option.bind_some]
      split
      · rename_i v hv
        simp only [hv]
        rw [cut?]
        cases scan? v with
        | none => rfl
        | some p =>
          obtain ⟨n, r, hr⟩ := p
          simp only [Option.map_some, Option.bind_some]
          split
          · rename_i t h
            simp only [h]
            rw [cutFields?]
            cases scanFields? t <;> rfl
          · rename_i h
            simp only [h, Option.map_some]
          · rename_i h₁ h₂
            split
            · exact (h₁ _ ‹_›).elim
            · exact (h₂ _ ‹_›).elim
            · rfl
      · rename_i hn
        split
        · exact (hn _ ‹_›).elim
        · rfl
  · rename_i hn
    split
    · exact (hn _ ‹_›).elim
    · rfl

/-- A text is read as the node that it starts with if nothing but blanks follow. -/
theorem read?_eq (s : List Char) :
    read? s = (cut? s).bind fun p => if skipSpace p.2 = [] then some p.1 else none := by
  rw [read?, cut?]
  cases scan? s <;> rfl

/-- What starts with a minus sign or a digit is read as a number. -/
theorem cut?_of_numeral {s t : List Char} {c : Char} (h : skipSpace s = c :: t)
    (hc : c = '-' ∨ c.isDigit = true) :
    cut? s = (Numeral.scan? (c :: t)).map fun p => (.number p.1, p.2) := by
  rw [cut?_eq, h]
  split
  all_goals first
    | rfl
    | rename_i heq
      obtain ⟨rfl, _⟩ := List.cons.inj heq
      exact absurd hc (by simp)

theorem ends_cons {c : Char} (hc : isSpace c = true ∨ c = ',' ∨ c = ']' ∨ c = '}')
    (r : List Char) : Numeral.Ends (c :: r) := by
  intro d hd
  obtain rfl := Option.some.inj hd
  simp only [isSpace, Bool.or_eq_true, decide_eq_true_eq] at hc
  rcases hc with (((rfl | rfl) | rfl) | rfl) | rfl | rfl | rfl <;> decide

theorem ends_append {b : List Char} (hb : Blanks b) {c : Char} (hc : c = ',' ∨ c = ']' ∨ c = '}')
    (r : List Char) : Numeral.Ends (b ++ c :: r) := by
  cases b with
  | nil => exact ends_cons (Or.inr hc) r
  | cons d b => exact ends_cons (Or.inl (hb d List.mem_cons_self)) _

theorem Spells.skipSpace_eq {n : Node} {s b : List Char} (h : Spells n s) (hb : Blanks b)
    (r : List Char) : skipSpace (b ++ (s ++ r)) = s ++ r := by
  obtain ⟨c, t, rfl, hc⟩ := h.eq_cons
  rw [skipSpace_append hb, List.cons_append, skipSpace_cons (isSpace_of_isStart hc)]

theorem SpellsItems.skipSpace_eq_cons {ns : List Node} {s : List Char} (h : SpellsItems ns s)
    (r : List Char) : ∃ c t, skipSpace (s ++ r) = c :: t ∧ c ≠ ']' := by
  have hfirst : ∃ b n u v, Blanks b ∧ Spells n u ∧ s = b ++ (u ++ v) := by
    cases h with
    | last hb hs _ => exact ⟨_, _, _, _, hb, hs, rfl⟩
    | next hb hs _ => exact ⟨_, _, _, _, hb, hs, rfl⟩
  obtain ⟨b, n, u, v, hb, hu, rfl⟩ := hfirst
  obtain ⟨c, t, rfl, hc⟩ := hu.eq_cons
  refine ⟨c, t ++ (v ++ r), ?_, ?_⟩
  · rw [List.append_assoc, List.append_assoc, hu.skipSpace_eq hb, List.cons_append]
  · rintro rfl
    cases hc

theorem SpellsFields.skipSpace_eq_cons {fs : List (List Char × Node)} {s : List Char}
    (h : SpellsFields fs s) (r : List Char) : ∃ t, skipSpace (s ++ r) = '"' :: t := by
  have hquote : ∀ {b : List Char} (t : List Char), Blanks b →
      skipSpace (b ++ '"' :: t) = '"' :: t := fun t hb => by
    rw [skipSpace_append hb, skipSpace_cons rfl]
  cases h with
  | last hb => exact ⟨_, by rw [List.append_assoc]; exact hquote _ hb⟩
  | next hb => exact ⟨_, by rw [List.append_assoc]; exact hquote _ hb⟩

mutual

/-- A node is cut off the text that starts with a text of it. -/
theorem cut?_of_spells : ∀ {n : Node} {s b r : List Char}, Spells n s → Blanks b →
    Numeral.Ends r → cut? (b ++ (s ++ r)) = some (n, r)
  | _, _, _, r, .null, hb, _ => by rw [cut?_eq, Spells.null.skipSpace_eq hb]; rfl
  | _, _, _, r, .bool_true, hb, _ => by rw [cut?_eq, Spells.bool_true.skipSpace_eq hb]; rfl
  | _, _, _, r, .bool_false, hb, _ => by rw [cut?_eq, Spells.bool_false.skipSpace_eq hb]; rfl
  | _, _, _, r, .number (n := n) hn, hb, hr => by
    obtain ⟨c, t, ht, hc⟩ := Numeral.text_eq_cons hn
    have hskip := (Spells.number hn).skipSpace_eq hb r
    have hscan := Numeral.scan?_text hn hr
    rw [ht, List.cons_append] at hskip hscan
    rw [ht, List.cons_append, cut?_of_numeral hskip hc, hscan]
    rfl
  | _, _, _, r, .string (s := s) hs, hb, _ => by
    rw [cut?_eq, (Spells.string hs).skipSpace_eq hb, quoted, List.cons_append, List.append_assoc]
    simp only [List.cons_append, List.nil_append, hs r, Option.map_some]
  | _, _, _, r, .emptyArray, hb, _ => by
    rw [cut?_eq, Spells.emptyArray.skipSpace_eq hb]
    simp only [List.cons_append, List.nil_append, skipSpace_cons (c := ']') rfl]
  | _, _, _, r, .array (s := s) h, hb, _ => by
    obtain ⟨c, t, hskip, hc⟩ := h.skipSpace_eq_cons r
    rw [cut?_eq, (Spells.array h).skipSpace_eq hb, List.cons_append]
    simp only [hskip, cutItems?_of_spells h r, Option.map_some]
    split
    · rename_i heq
      exact absurd (List.cons.inj heq).1 hc
    · rfl
  | _, _, _, r, .emptyObject, hb, _ => by
    rw [cut?_eq, Spells.emptyObject.skipSpace_eq hb]
    simp only [List.cons_append, List.nil_append, skipSpace_cons (c := '}') rfl]
  | _, _, _, r, .object (s := s) h, hb, _ => by
    obtain ⟨t, hskip⟩ := h.skipSpace_eq_cons r
    rw [cut?_eq, (Spells.object h).skipSpace_eq hb, List.cons_append]
    simp only [hskip, cutFields?_of_spells h r, Option.map_some]
    rfl

theorem cutItems?_of_spells : ∀ {ns : List Node} {s : List Char}, SpellsItems ns s →
    ∀ r, cutItems? (s ++ r) = some (ns, r)
  | _, _, .last (s := s) (c := c) hb hs hc, r => by
    have hends := ends_append hc (Or.inr (Or.inl rfl)) r
    have hcut := cut?_of_spells hs hb hends
    simp only [List.append_assoc, List.cons_append, List.nil_append]
    rw [cutItems?_eq, hcut]
    simp only [Option.bind_some, skipSpace_append hc, skipSpace_cons (c := ']') rfl]
  | _, _, .next (s := s) (t := t) hb hs ht, r => by
    have hends := ends_append blanks_nil (Or.inl rfl) (t ++ r)
    have hcut := cut?_of_spells hs hb hends
    simp only [List.append_assoc, List.cons_append, List.nil_append] at hcut ⊢
    rw [cutItems?_eq, hcut]
    simp only [Option.bind_some, skipSpace_cons (c := ',') rfl,
      cutItems?_of_spells ht r, Option.map_some]

theorem cutFields?_of_spells : ∀ {fs : List (List Char × Node)} {s : List Char},
    SpellsFields fs s → ∀ r, cutFields? (s ++ r) = some (fs, r)
  | _, _, .last (s := s) (d := d) hb hk hc hs hd, r => by
    have hends := ends_append hd (Or.inr (Or.inr rfl)) r
    have hcut := cut?_of_spells hs hc hends
    simp only [quoted, List.append_assoc, List.cons_append, List.nil_append]
    rw [cutFields?_eq, skipSpace_append hb, skipSpace_cons (c := '"') rfl]
    simp only [hk _, Option.bind_some, skipSpace_cons (c := ':') rfl, hcut,
      skipSpace_append hd, skipSpace_cons (c := '}') rfl]
  | _, _, .next (s := s) (t := t) hb hk hc hs ht, r => by
    have hends := ends_append blanks_nil (Or.inl rfl) (t ++ r)
    have hcut := cut?_of_spells hs hc hends
    simp only [quoted, List.append_assoc, List.cons_append, List.nil_append] at hcut ⊢
    rw [cutFields?_eq, skipSpace_append hb, skipSpace_cons (c := '"') rfl]
    simp only [hk _, Option.bind_some, skipSpace_cons (c := ':') rfl, hcut,
      skipSpace_cons (c := ',') rfl, cutFields?_of_spells ht r, Option.map_some]

end

/-- Reading gives the node that a text spells. -/
theorem read?_of_spells {n : Node} {s : List Char} (h : Spells n s) : read? s = some n := by
  have hcut := cut?_of_spells h blanks_nil (r := []) fun _ hc => by cases hc
  rw [List.nil_append, List.append_nil, cut?, Option.map_eq_some_iff] at hcut
  obtain ⟨⟨m, r, hr⟩, hscan, heq⟩ := hcut
  obtain ⟨rfl, rfl⟩ := Prod.mk.inj heq
  rw [read?, hscan]
  rfl

/-! ## The two forms in which a node is written -/

mutual

/-- A node with strings and numerals as the reader takes them. -/
def WellFormed : Node → Prop
  | .null => True
  | .bool _ => True
  | .number n => n.WellFormed
  | .string s => Closed s
  | .array ns => WellFormedItems ns
  | .object fs => WellFormedFields fs

/-- Well-formed items. -/
def WellFormedItems : List Node → Prop
  | [] => True
  | n :: ns => n.WellFormed ∧ WellFormedItems ns

/-- Well-formed fields. -/
def WellFormedFields : List (List Char × Node) → Prop
  | [] => True
  | (k, n) :: fs => Closed k ∧ n.WellFormed ∧ WellFormedFields fs

end

theorem wellFormedItems_iff : ∀ {ns : List Node},
    WellFormedItems ns ↔ ∀ n ∈ ns, n.WellFormed
  | [] => by simp [WellFormedItems]
  | n :: ns => by simp [WellFormedItems, wellFormedItems_iff]

theorem wellFormedFields_iff : ∀ {fs : List (List Char × Node)},
    WellFormedFields fs ↔ ∀ f ∈ fs, Closed f.1 ∧ f.2.WellFormed
  | [] => by simp [WellFormedFields]
  | (k, n) :: fs => by simp [WellFormedFields, wellFormedFields_iff, and_assoc]

mutual

theorem spells_compact : ∀ {n : Node}, n.WellFormed → Spells n n.compact
  | .null, _ => .null
  | .bool true, _ => .bool_true
  | .bool false, _ => .bool_false
  | .number _, h => .number h
  | .string _, h => .string h
  | .array [], _ => .emptyArray
  | .array (n :: ns), h => .array (spellsItems_compact h (List.cons_ne_nil n ns))
  | .object [], _ => .emptyObject
  | .object (f :: fs), h => .object (spellsFields_compact h (List.cons_ne_nil f fs))

theorem spellsItems_compact : ∀ {ns : List Node}, WellFormedItems ns → ns ≠ [] →
    SpellsItems ns (compactItems ns ++ [']'])
  | [], _, hne => absurd rfl hne
  | [n], h, _ => SpellsItems.last blanks_nil (spells_compact h.1) blanks_nil
  | n :: m :: ns, h, _ => by
    have hnext := SpellsItems.next blanks_nil (spells_compact h.1)
      (spellsItems_compact h.2 (List.cons_ne_nil m ns))
    rw [compactItems, List.append_assoc]
    · exact hnext
    · exact List.cons_ne_nil m ns

theorem spellsFields_compact : ∀ {fs : List (List Char × Node)}, WellFormedFields fs → fs ≠ [] →
    SpellsFields fs (compactFields fs ++ ['}'])
  | [], _, hne => absurd rfl hne
  | [(k, n)], h, _ => by
    have hlast := SpellsFields.last blanks_nil h.1 blanks_nil (spells_compact h.2.1) blanks_nil
    rw [compactFields, List.append_assoc]
    exact hlast
  | (k, n) :: f :: fs, h, _ => by
    have hnext := SpellsFields.next blanks_nil h.1 blanks_nil (spells_compact h.2.1)
      (spellsFields_compact h.2.2 (List.cons_ne_nil f fs))
    rw [compactFields, List.append_assoc, List.cons_append, List.append_assoc]
    · exact hnext
    · exact List.cons_ne_nil f fs

end

theorem blanks_lineBreak (level : Nat) : Blanks (lineBreak level) := by
  intro c hc
  rcases List.mem_cons.mp hc with rfl | hc
  · rfl
  · rw [(List.mem_replicate.mp hc).2]
    rfl

theorem blanks_space : Blanks [' '] := fun c hc => by
  rw [List.mem_singleton.mp hc]
  rfl

mutual

theorem spells_prettyAt : ∀ {level : Nat} {n : Node}, n.WellFormed →
    Spells n (n.prettyAt level)
  | _, .null, _ => .null
  | _, .bool true, _ => .bool_true
  | _, .bool false, _ => .bool_false
  | _, .number _, h => .number h
  | _, .string _, h => .string h
  | _, .array [], _ => .emptyArray
  | level, .array (_ :: _), h => by
    rw [prettyAt, List.append_assoc]
    exact .array (spellsItems_pretty h.2 (spells_prettyAt h.1))
  | _, .object [], _ => .emptyObject
  | level, .object ((_, _) :: _), h => by
    rw [prettyAt, List.append_assoc, List.append_assoc, List.append_assoc]
    exact .object (spellsFields_pretty h.2.2 h.1 (spells_prettyAt h.2.1))

theorem spellsItems_pretty : ∀ {level : Nat} {ns : List Node} {n : Node} {s : List Char},
    WellFormedItems ns → Spells n s →
      SpellsItems (n :: ns) (lineBreak (level + 1) ++ (s ++ prettyItems level ns))
  | level, [], _, _, _, hs => .last (blanks_lineBreak _) hs (blanks_lineBreak level)
  | level, m :: ns, _, _, h, hs => by
    rw [prettyItems, List.append_assoc]
    exact .next (blanks_lineBreak _) hs (spellsItems_pretty h.2 (spells_prettyAt h.1))

theorem spellsFields_pretty : ∀ {level : Nat} {fs : List (List Char × Node)} {k : List Char}
    {n : Node} {s : List Char}, WellFormedFields fs → Closed k → Spells n s →
      SpellsFields ((k, n) :: fs)
        (lineBreak (level + 1) ++ (quoted k ++ ([':', ' '] ++ (s ++ prettyFields level fs))))
  | level, [], _, _, _, _, hk, hs =>
    .last (blanks_lineBreak _) hk blanks_space hs (blanks_lineBreak level)
  | level, (l, m) :: fs, _, _, _, h, hk, hs => by
    rw [prettyFields, List.append_assoc, List.append_assoc, List.append_assoc]
    exact .next (blanks_lineBreak _) hk blanks_space hs
      (spellsFields_pretty h.2.2 h.1 (spells_prettyAt h.2.1))

end

/-- A node is read back from either form in which it is written. -/
theorem read?_text {n : Node} (h : n.WellFormed) (indented : Bool) :
    read? (n.text indented).toList = some n := by
  rw [text, String.toList_ofList]
  cases indented with
  | true => exact read?_of_spells (spells_prettyAt h)
  | false => exact read?_of_spells (spells_compact h)

end Node

end CallContract.Json
