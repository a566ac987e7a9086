import CallContract.Proofs.Prefix
import CallContract.Proofs.Quoted
import CallContract.Proofs.Source.Tiling

/-!
# How far a scanner looks

A scanner is given all that is left of a text. One that reads a string, a template or a block
comment sees nothing behind the delimiter that closes it (`exists_stringBody`,
`exists_templateBody`, `blockLength?_append`). All others look at characters up to the first that
no lexeme goes on with, which are blanks and slashes, or up to the end (`Breaks`). So where the
text breaks behind a lexeme, it may go on in any other way that breaks: the lexeme is the same, and
takes as many characters (`lexemeAt_break`).
-/

namespace CallContract.Source

variable {s w x y : List Char}

/-! ## Strings -/

section Quotes

variable {q : Char} {n : Nat}

/-- A quote is no digit. -/
theorem hexValue?_of_quote_mem (hq : IsQuote q) {ds : List Char} (h : q ∈ ds) :
    hexValue? ds = none := by
  cases hv : hexValue? ds with
  | none => rfl
  | some n => exact absurd rfl ((inert_of_unsigned? hv q h).ne_quote hq)

/-- The digits of an escape stand in front of the quote. -/
theorem le_length_of_hexValue? (hq : IsQuote q) {k : Nat}
    (h : hexValue? ((w ++ q :: x).take k) = some n) : k ≤ w.length := by
  by_contra hlt
  have hmem : q ∈ (w ++ q :: x).take k := by
    obtain ⟨m, hm⟩ : ∃ m, k - w.length = m + 1 := ⟨k - w.length - 1, by omega⟩
    rw [List.take_append, List.take_of_length_le (by omega), List.mem_append, hm,
      List.take_succ_cons]
    exact Or.inr List.mem_cons_self
  rw [hexValue?_of_quote_mem hq hmem] at h
  cases h

/-- Digits in braces are closed in front of the quote. -/
theorem mem_of_hexValue?_takeWhile (hq : IsQuote q)
    (h : hexValue? ((w ++ q :: x).takeWhile (· ≠ '\x7d')) = some n) : '\x7d' ∈ w := by
  by_contra hno
  have hall : ∀ c ∈ w, decide (c ≠ '\x7d') = true := fun c hc =>
    decide_eq_true fun heq => hno (heq ▸ hc)
  have hbrace : q ≠ '\x7d' := by rcases hq with rfl | rfl <;> decide
  have hmem : q ∈ (w ++ q :: x).takeWhile (· ≠ '\x7d') := by
    rw [List.takeWhile_append_of_pos hall, List.takeWhile_cons_of_pos (by simpa using hbrace)]
    exact List.mem_append_right _ List.mem_cons_self
  rw [hexValue?_of_quote_mem hq hmem] at h
  cases h

/-- An initial part ends in front of an element that does not belong to it. -/
theorem takeWhile_append_of_mem {p : Char → Bool} {c : Char} (hc : c ∈ w) (hp : p c = false)
    (y : List Char) : (w ++ y).takeWhile p = w.takeWhile p ∧
      (w.takeWhile p).length < w.length := by
  have htaken := List.takeWhile_prefix p (l := w)
  have hne : (w.takeWhile p).length ≠ w.length := fun heq => by
    have hall := List.takeWhile_eq_self_iff.mp (htaken.eq_of_length heq) c hc
    rw [hp] at hall
    cases hall
  refine ⟨by rw [List.takeWhile_append, if_neg hne], ?_⟩
  have := htaken.length_le
  omega

theorem hexEscape?_quote (hq : IsQuote q) {p : Char × Nat}
    (h : hexEscape? (w ++ q :: x) = some p) (y : List Char) :
    hexEscape? (w ++ q :: y) = some p := by
  unfold hexEscape? at h
  split at h
  · rename_i a b t heq
    obtain ⟨c, hc, rfl⟩ := Option.map_eq_some_iff.mp h
    obtain ⟨n, hn, -⟩ := Option.bind_eq_some_iff.mp hc
    have hlen : 2 ≤ w.length := le_length_of_hexValue? hq (x := x) (n := n) (by rw [heq]; exact hn)
    match w, hlen with
    | a' :: b' :: v, _ =>
      simp only [List.cons_append, List.cons.injEq] at heq
      obtain ⟨rfl, rfl, -⟩ := heq
      exact h
  · cases h

/-- Digits in braces in front of a quote. -/
theorem unicodeEscape?_quote_braced (hq : IsQuote q) {p : Char × Nat}
    (h : unicodeEscape? ('\x7b' :: (w ++ q :: x)) = some p) (y : List Char) :
    unicodeEscape? ('\x7b' :: (w ++ q :: y)) = some p := by
  rw [unicodeEscape?] at h ⊢
  obtain ⟨c, hc, -⟩ := Option.map_eq_some_iff.mp h
  obtain ⟨n, hn, -⟩ := Option.bind_eq_some_iff.mp hc
  have hmem := mem_of_hexValue?_takeWhile hq hn
  have hclosed : ∀ z, ((w ++ q :: z).takeWhile (· ≠ '\x7d')) = w.takeWhile (· ≠ '\x7d') ∧
      (w.takeWhile (· ≠ '\x7d')).length < (w ++ q :: z).length := fun z => by
    obtain ⟨htake, hlt⟩ := takeWhile_append_of_mem hmem (p := (· ≠ '\x7d')) (by simp) (q :: z)
    exact ⟨htake, by rw [List.length_append]; omega⟩
  rw [(hclosed x).1, if_pos (hclosed x).2] at h
  rw [(hclosed y).1, if_pos (hclosed y).2]
  exact h

/-- A second escape starts in front of the quote if it starts at all. -/
theorem exists_of_append_eq (hq : IsQuote q) {r : List Char}
    (h : w ++ q :: x = '\\' :: 'u' :: r) : ∃ v, w = '\\' :: 'u' :: v ∧ r = v ++ q :: x := by
  match w with
  | [] =>
    have hback : q ≠ '\\' := by rcases hq with rfl | rfl <;> decide
    exact absurd (List.cons.inj h).1 hback
  | [e] =>
    have hletter : q ≠ 'u' := by rcases hq with rfl | rfl <;> decide
    exact absurd (List.cons.inj (List.cons.inj h).2).1 hletter
  | e :: f :: v =>
    simp only [List.cons_append, List.cons.injEq] at h
    obtain ⟨rfl, rfl, rfl⟩ := h
    exact ⟨v, rfl, rfl⟩

theorem exists_four_of_le_length (h : 4 ≤ w.length) : ∃ a b c d v, w = a :: b :: c :: d :: v := by
  match w, h with
  | a :: b :: c :: d :: v, _ => exact ⟨a, b, c, d, v, rfl⟩

/-- An escape in front of a quote is the same, whatever is behind the quote. -/
theorem unicodeEscape?_quote (hq : IsQuote q) {p : Char × Nat}
    (h : unicodeEscape? (w ++ q :: x) = some p) (y : List Char) :
    unicodeEscape? (w ++ q :: y) = some p := by
  by_cases hbrace : ∃ v, w = '\x7b' :: v
  · obtain ⟨v, rfl⟩ := hbrace
    exact unicodeEscape?_quote_braced hq h y
  unfold unicodeEscape? at h
  split at h
  · rename_i t heq
    rcases w with _ | ⟨e, w⟩
    · rcases hq with rfl | rfl <;> cases heq
    · exact absurd ⟨w, by rw [(List.cons.inj heq).1]⟩ hbrace
  · rename_i a b c d t _ heq
    split at h
    · cases h
    rename_i high hhigh
    have hlen : 4 ≤ w.length :=
      le_length_of_hexValue? hq (x := x) (n := high) (by rw [heq]; exact hhigh)
    obtain ⟨a', b', c', d', v, rfl⟩ := exists_four_of_le_length hlen
    simp only [List.cons_append, List.cons.injEq] at heq
    obtain ⟨rfl, rfl, rfl, rfl, rfl⟩ := heq
    have hopen : a' = '\x7b' → False := fun ha => hbrace ⟨_, by rw [ha]⟩
    simp only [List.cons_append]
    rw [unicodeEscape?.eq_2 _ _ _ _ _ hopen, hhigh]
    split at h
    · rename_i hhalf
      simp only [if_pos hhalf]
      split at h
      · -- the second escape has its digits in front of the quote too
        rename_i heq
        obtain ⟨v, rfl, rfl⟩ := exists_of_append_eq hq heq
        split at h
        · cases h
        rename_i low hlow
        have hlen := le_length_of_hexValue? hq hlow
        rw [List.take_append_of_le_length hlen] at hlow
        have hlong : ∀ z, ¬(v ++ q :: z).length < 4 := fun z => by
          rw [List.length_append]
          omega
        rw [if_neg (hlong x)] at h
        simp only [List.cons_append, List.take_append_of_le_length hlen, hlow, if_neg (hlong y)]
        exact h
      · rename_i hother
        split
        · rename_i heq
          obtain ⟨v, rfl, -⟩ := exists_of_append_eq hq heq
          exact absurd rfl (hother (v ++ q :: x))
        · exact h
    · rename_i hhalf
      simp only [if_neg hhalf]
      exact h
  · cases h

theorem escape?_quote (hq : IsQuote q) {cs : List Char}
    (h : escape? (w ++ q :: x) = some (cs, n)) (y : List Char) :
    escape? (w ++ q :: y) = some (cs, n) := by
  rcases w with _ | ⟨e, w⟩
  · rcases hq with rfl | rfl <;> exact h
  rw [List.cons_append] at h ⊢
  unfold escape? at h ⊢
  simp only at h ⊢
  split at h
  case h_8 =>
    obtain ⟨p, hp, heq⟩ := Option.map_eq_some_iff.mp h
    rw [hexEscape?_quote hq hp]
    exact congrArg some heq
  case h_9 =>
    obtain ⟨p, hp, heq⟩ := Option.map_eq_some_iff.mp h
    rw [unicodeEscape?_quote hq hp]
    exact congrArg some heq
  all_goals exact h

/-- A string literal ends with its quote, and is the same whatever is behind it. -/
theorem exists_stringBody (hq : IsQuote q) {v : List Char} (h : stringBody q s = .ok (v, n)) :
    ∃ raw post, s = raw ++ q :: post ∧ n = raw.length + 1 ∧
      ∀ y, stringBody q (raw ++ q :: y) = .ok (v, n) := by
  fun_induction stringBody q s generalizing v n with
  | case1 => cases h
  | case2 r =>
    cases h
    exact ⟨[], r, rfl, rfl, fun y => by rw [List.nil_append, stringBody, if_pos rfl]⟩
  | case3 => cases h
  | case4 => cases h
  | case5 => cases h
  | case6 => cases h
  | case7 r _ cs k hescape t m hbody hquote hbreak ih =>
    cases h
    obtain ⟨hle, -⟩ := decodes_escape? hq hescape
    obtain ⟨raw, post, hdrop, rfl, hread⟩ := ih hbody
    have hr : r = (r.take k ++ raw) ++ q :: post := by
      rw [List.append_assoc, ← hdrop, List.take_append_drop]
    have hlen : (r.take k).length = k := List.length_take_of_le hle
    refine ⟨'\\' :: (r.take k ++ raw), post, congrArg _ hr, ?_, fun y => ?_⟩
    · rw [List.length_cons, List.length_append, hlen]
      omega
    · have hescape' := escape?_quote hq (hr ▸ hescape) y
      have hdrop' : ((r.take k ++ raw) ++ q :: y).drop k = raw ++ q :: y := by
        rw [List.append_assoc]
        exact List.drop_left' hlen
      rw [List.cons_append, stringBody, if_neg hquote, if_neg hbreak, if_pos rfl,
        if_neg (by simp), hescape']
      simp only [hdrop', hread]
  | case8 => cases h
  | case9 c r hquote hbreak hback t m hbody ih =>
    cases h
    obtain ⟨raw, post, rfl, rfl, hread⟩ := ih hbody
    refine ⟨c :: raw, post, rfl, rfl, fun y => ?_⟩
    rw [List.cons_append, stringBody, if_neg hquote, if_neg hbreak, if_neg hback, hread]

end Quotes

/-! ## Templates -/

/-- How a template goes on: it is closed, or an escape, a substitution or a plain character stands
in front of what is left. -/
inductive TemplateStep (start pos : Nat) : List Char → Option (List Char) → Nat → Prop
  | close {r : List Char} : TemplateStep start pos ('\x60' :: r) (some []) 1
  | escaped {d : Char} {t : List Char} {body : Option (List Char)} {n : Nat} :
    templateBody start (pos + width ['\\', d]) t = .ok (body, n) →
    TemplateStep start pos ('\\' :: d :: t) (body.map (['\\', d] ++ ·)) (n + 2)
  | substituted {t : List Char} {body : Option (List Char)} {n m : Nat} :
    substitution (pos + 2) (pos + 2) 0 t = .ok n →
    templateBody start (pos + 2 + width (t.take n)) (t.drop n) = .ok (body, m) →
    TemplateStep start pos ('$' :: '\x7b' :: t) none (m + n + 2)
  | plain {c : Char} {r : List Char} {body : Option (List Char)} {n : Nat} : c ≠ '\x60' →
    c ≠ '\\' → (∀ t, c = '$' → r ≠ '\x7b' :: t) →
    templateBody start (pos + c.utf8Size) r = .ok (body, n) →
    TemplateStep start pos (c :: r) (body.map (c :: ·)) (n + 1)

theorem templateStep_of_templateBody {start pos n : Nat} {s : List Char}
    {body : Option (List Char)} (h : templateBody start pos s = .ok (body, n)) :
    TemplateStep start pos s body n := by
  rcases s with _ | ⟨c, r⟩
  · rw [templateBody] at h
    cases h
  by_cases hquote : c = '\x60'
  · subst hquote
    rw [templateBody] at h
    cases h
    exact .close
  by_cases hback : c = '\\'
  · subst hback
    rw [templateBody] at h
    split at h
    · cases h
    rename_i body m hm
    cases h
    obtain ⟨d, t, rfl⟩ := List.exists_cons_of_ne_nil (l := r) (by
      rintro rfl
      rw [List.drop_nil, templateBody] at hm
      cases hm)
    exact .escaped hm
  by_cases hopen : ∃ t, c = '$' ∧ r = '\x7b' :: t
  · obtain ⟨t, rfl, rfl⟩ := hopen
    rw [templateBody] at h
    split at h
    · cases h
    rename_i k hk
    split at h
    · cases h
    rename_i body m hm
    cases h
    exact .substituted hk hm
  · rw [templateBody.eq_5 _ _ _ _ hquote hback fun t hc hr => hopen ⟨t, hc, hr⟩] at h
    split at h
    · cases h
    rename_i body m hm
    cases h
    exact .plain hquote hback (fun t hc hr => hopen ⟨t, hc, hr⟩) hm

/-- A closing quote is part of a template. -/
theorem ne_nil_of_templateBody {start pos n : Nat} {body : Option (List Char)}
    {raw post : List Char} (h : templateBody start pos (raw ++ post) = .ok (body, n))
    (hn : n = raw.length) : raw ≠ [] := by
  rintro rfl
  cases hn
  generalize hm : ([] : List Char).length = m at h
  cases templateStep_of_templateBody h <;> cases hm

/-- Text in front of a substitution that goes on inside `depth'` braces of its own : wherever it
stands and whatever follows, it is passed over. -/
def Skips (depth depth' : Nat) (front : List Char) : Prop := ∀ start pos y, ∃ pos',
  substitution start pos depth (front ++ y) =
    (substitution start pos' depth' y).map (· + front.length)

/-- A template at the start of a text is the same, whatever is behind it. -/
def TakesTemplate (r : List Char) : Prop :=
  ∀ {start pos n : Nat} {body : Option (List Char)}, templateBody start pos r = .ok (body, n) →
    ∃ raw post, r = raw ++ post ∧ n = raw.length ∧
      ∀ start' pos' y, templateBody start' pos' (raw ++ y) = .ok (body, n)

namespace Skips

variable {depth : Nat} {c : Char} {raw : List Char}

theorem brace (depth : Nat) : Skips (depth + 1) depth ['\x7d'] := fun start pos y => by
  refine ⟨pos + 1, ?_⟩
  rw [List.cons_append, List.nil_append, substitution, if_pos rfl]
  cases substitution start (pos + 1) depth y <;> rfl

theorem quoted (hc : c = '"' ∨ c = '\x27') {v : List Char}
    (h : ∀ y, stringBody c (raw ++ c :: y) = .ok (v, raw.length + 1)) :
    Skips depth depth (c :: (raw ++ [c])) := fun start pos y => by
  have hclose : c ≠ '\x7d' := by rcases hc with rfl | rfl <;> decide
  have hlen : (raw ++ [c]).length = raw.length + 1 := by simp
  refine ⟨pos + 1 + width (raw ++ [c]), ?_⟩
  have hbody := h y
  rw [← List.singleton_append, ← List.append_assoc, ← hlen] at hbody
  rw [List.cons_append, substitution.eq_def start pos depth (c :: _)]
  simp only [if_neg hclose, if_pos hc, hbody, List.take_left, List.drop_left]
  cases substitution start (pos + 1 + width (raw ++ [c])) depth y <;> rfl

theorem template {body : Option (List Char)}
    (h : ∀ start' pos' y, templateBody start' pos' (raw ++ y) = .ok (body, raw.length)) :
    Skips depth depth ('\x60' :: raw) := fun start pos y => by
  refine ⟨pos + 1 + width raw, ?_⟩
  rw [List.cons_append, substitution.eq_def start pos depth ('\x60' :: _)]
  simp only [if_neg (show '\x60' ≠ '\x7d' by decide), if_true, h, List.take_left, List.drop_left,
    if_neg (show ¬('\x60' = '"' ∨ '\x60' = '\x27') by decide)]
  cases substitution start (pos + 1 + width raw) depth y <;> rfl

theorem plain (hclose : c ≠ '\x7d') (hquote : ¬(c = '"' ∨ c = '\x27')) (htemplate : c ≠ '\x60') :
    Skips depth (if c = '\x7b' then depth + 1 else depth) [c] := fun start pos y => by
  refine ⟨pos + c.utf8Size, ?_⟩
  rw [List.cons_append, List.nil_append, substitution.eq_def start pos depth (c :: y)]
  simp only [if_neg hclose, if_neg hquote, if_neg htemplate]
  cases substitution start (pos + c.utf8Size) (if c = '\x7b' then depth + 1 else depth) y <;> rfl

end Skips

/-- A substitution is closed, or something is passed over in front of what is left of it. -/
theorem skips_of_substitution {start pos depth n : Nat} {c : Char} {r : List Char}
    (h : substitution start pos depth (c :: r) = .ok n) (htakes : TakesTemplate r) :
    (c = '\x7d' ∧ depth = 0 ∧ n = 1) ∨ ∃ front rest depth' pos' m, r = front ++ rest ∧
      Skips depth depth' (c :: front) ∧ substitution start pos' depth' rest = .ok m ∧
      n = m + (front.length + 1) := by
  rw [substitution.eq_def] at h
  simp only at h
  split at h
  · rename_i hclose
    subst hclose
    split at h
    · cases h
      exact Or.inl ⟨rfl, rfl, rfl⟩
    · split at h
      · cases h
      rename_i m hm
      cases h
      exact Or.inr ⟨[], r, _, _, m, rfl, .brace _, hm, rfl⟩
  rename_i hclose
  split at h
  · rename_i hquote
    split at h
    · cases h
    rename_i v k hk
    split at h
    · cases h
    rename_i m hm
    cases h
    obtain ⟨raw, rest, rfl, rfl, hread⟩ := exists_stringBody hquote hk
    have hr : raw ++ c :: rest = (raw ++ [c]) ++ rest := by simp
    have hlen : (raw ++ [c]).length = raw.length + 1 := by simp
    rw [hr, ← hlen, List.drop_left] at hm
    exact Or.inr ⟨raw ++ [c], rest, depth, _, m, hr, .quoted hquote hread, hm, by rw [hlen]; rfl⟩
  rename_i hquote
  split at h
  · rename_i htemplate
    subst htemplate
    split at h
    · cases h
    rename_i body k hk
    split at h
    · cases h
    rename_i m hm
    cases h
    obtain ⟨raw, rest, rfl, rfl, hread⟩ := htakes hk
    rw [List.drop_left] at hm
    exact Or.inr ⟨raw, rest, depth, _, m, rfl, .template hread, hm, rfl⟩
  · rename_i htemplate
    split at h
    · cases h
    rename_i m hm
    cases h
    exact Or.inr ⟨[], r, _, _, m, rfl, .plain hclose hquote htemplate, hm, rfl⟩

mutual

/-- A template ends with its quote, and is the same whatever is behind it. -/
theorem exists_templateBody {s : List Char} {start pos n : Nat} {body : Option (List Char)}
    (h : templateBody start pos s = .ok (body, n)) :
    ∃ raw post, s = raw ++ post ∧ n = raw.length ∧
      ∀ start' pos' y, templateBody start' pos' (raw ++ y) = .ok (body, n) := by
  cases templateStep_of_templateBody h with
  | @close r =>
    exact ⟨['\x60'], r, rfl, rfl, fun start' pos' y => by rw [List.cons_append, templateBody]⟩
  | @escaped d t body n hm =>
    obtain ⟨raw, post, rfl, rfl, hread⟩ := exists_templateBody hm
    refine ⟨'\\' :: d :: raw, post, rfl, rfl, fun start' pos' y => ?_⟩
    rw [List.cons_append, List.cons_append, templateBody]
    simp only [List.drop_succ_cons, List.drop_zero, hread]
    rfl
  | @substituted t body n m hk hm =>
    obtain ⟨inner, behind, rfl, rfl, hinner⟩ := exists_substitution hk
    rw [List.drop_left] at hm
    obtain ⟨raw, post, rfl, rfl, hread⟩ := exists_templateBody hm
    refine ⟨'$' :: '\x7b' :: (inner ++ raw), post, by simp, ?_, fun start' pos' y => ?_⟩
    · simp only [List.length_cons, List.length_append]
      omega
    · rw [List.cons_append, List.cons_append, templateBody, List.append_assoc, hinner]
      simp only [List.drop_left, hread]
  | @plain c r body n hquote hback hopen hm =>
    obtain ⟨raw, post, rfl, hn, hread⟩ := exists_templateBody hm
    obtain ⟨d, raw, rfl⟩ := List.exists_cons_of_ne_nil (ne_nil_of_templateBody hm hn)
    subst hn
    refine ⟨c :: d :: raw, post, rfl, rfl, fun start' pos' y => ?_⟩
    have hopen' : ∀ t, c = '$' → d :: raw ++ y = '\x7b' :: t → False := fun t hc ht =>
      hopen (raw ++ post) hc (by rw [List.cons_append, (List.cons.inj ht).1])
    rw [List.cons_append, templateBody.eq_5 _ _ _ _ hquote hback hopen', hread]
termination_by s.length
decreasing_by all_goals subst_vars; simp only [List.length_cons, List.length_append]; omega

/-- A substitution ends with its brace, and is the same whatever is behind it. -/
theorem exists_substitution {s : List Char} {start pos depth n : Nat}
    (h : substitution start pos depth s = .ok n) :
    ∃ raw post, s = raw ++ post ∧ n = raw.length ∧
      ∀ start' pos' y, substitution start' pos' depth (raw ++ y) = .ok n := by
  match s with
  | [] =>
    rw [substitution] at h
    cases h
  | c :: r =>
    rcases skips_of_substitution h (fun hm => exists_templateBody hm) with
      ⟨rfl, rfl, rfl⟩ | ⟨front, rest, depth', pos', m, rfl, hskips, hm, rfl⟩
    · refine ⟨['\x7d'], r, rfl, rfl, fun start' pos' y => ?_⟩
      rw [List.cons_append, substitution, if_pos rfl]
    · obtain ⟨raw, post, rfl, rfl, hread⟩ := exists_substitution hm
      refine ⟨c :: (front ++ raw), post, by simp, by simp; omega, fun start' pos' y => ?_⟩
      obtain ⟨pos'', hfront⟩ := hskips start' pos' (raw ++ y)
      rw [List.cons_append, List.append_assoc, ← List.cons_append, hfront, hread]
      rfl
termination_by s.length
decreasing_by all_goals subst_vars; simp only [List.length_cons, List.length_append]; omega

end

/-! ## Block comments -/

/-- A block comment ends where it did. -/
theorem blockLength?_append {n : Nat} (h : blockLength? s = some n) (u : List Char) :
    n + 2 ≤ s.length ∧ blockLength? (s ++ u) = some n := by
  fun_induction blockLength? s generalizing n with
  | case1 => cases h
  | case2 s =>
    cases h
    exact ⟨by simp, rfl⟩
  | case3 c s hend ih =>
    obtain ⟨m, hm, rfl⟩ := Option.map_eq_some_iff.mp h
    obtain ⟨hlen, hm⟩ := ih hm
    have hend' : ∀ t, c = '*' → s ++ u = '/' :: t → False := by
      intro t hc ht
      rcases s with _ | ⟨d, s⟩
      · exact absurd hlen (by simp)
      · exact hend s hc (by rw [(List.cons.inj ht).1])
    refine ⟨by simp only [List.length_cons]; omega, ?_⟩
    rw [List.cons_append, blockLength?.eq_3 _ _ hend', hm]
    rfl

/-! ## Where no lexeme goes on -/

/-- What no word, number or operator goes on with comes first, or nothing. -/
def Breaks (x : List Char) : Prop := ∀ c ∈ x.head?, isGap c = true ∨ c = '/'

namespace Breaks

/-- The characters that are classed alike break a text alike. -/
theorem not_of (hx : Breaks x) {p : Char → Bool} (hp : ('/' :: blanks).any p = false) :
    ∀ c ∈ x.head?, p c = false := by
  intro c hc
  have hmem : c ∈ '/' :: blanks := by
    rcases hx c hc with hgap | rfl
    · exact List.mem_cons_of_mem _ (mem_blanks_of_isGap hgap)
    · exact List.mem_cons_self
  exact Bool.eq_false_iff.mpr (List.any_eq_false.mp hp c hmem)

end Breaks

theorem numberLength_le : ∀ (run s : List Char), numberLength run s ≤ s.length
  | _, [] => Nat.le_refl _
  | run, c :: s => by
    rw [numberLength]
    split
    · exact Nat.succ_le_succ (numberLength_le _ s)
    split
    · exact Nat.succ_le_succ (numberLength_le _ s)
    split
    · exact Nat.succ_le_succ (numberLength_le _ s)
    · exact Nat.zero_le _

/-- A number ends where the text breaks. -/
theorem numberLength_append (hx : Breaks x) : ∀ (run s : List Char),
    numberLength run (s ++ x) = numberLength run s
  | run, [] => by
    rcases x with _ | ⟨c, x⟩
    · rfl
    · have hpart := hx.not_of (p := isNumberPart) rfl c rfl
      have hpoint := hx.not_of (p := (· = '.')) rfl c rfl
      have hsign := hx.not_of (p := fun c => c = '+' ∨ c = '-') rfl c rfl
      change numberLength run (c :: x) = 0
      rw [numberLength, if_neg (by rw [hpart]; decide), if_neg (of_decide_eq_false hpoint),
        if_neg fun hc => of_decide_eq_false hsign hc.1]
  | run, c :: s => by
    rw [List.cons_append, numberLength, numberLength, numberLength_append hx _ s,
      numberLength_append hx _ s]

/-- A word ends where the text breaks. -/
theorem takeWhile_continuesWord_append (hx : Breaks x) (s : List Char) :
    (s ++ x).takeWhile continuesWord = s.takeWhile continuesWord :=
  takeWhile_append_of_head fun c hc => by
    rw [hx.not_of (p := continuesWord) rfl c hc]
    decide

/-- No digit stands where the text breaks. -/
theorem any_isDigit_head?_append (hx : Breaks x) (s : List Char) :
    (s ++ x).head?.any Char.isDigit = s.head?.any Char.isDigit := by
  rcases s with _ | ⟨d, s⟩
  · rw [List.nil_append]
    cases hd : x.head? with
    | none => rfl
    | some d => exact hx.not_of (p := Char.isDigit) rfl d hd
  · rfl

/-- The flags of a regular expression are all that follows its closing slash. -/
theorem exists_regexLength? {inClass : Bool} {n : Nat} (h : regexLength? inClass s = some n) :
    ∃ raw post, s = raw ++ post ∧ n = raw.length + (post.takeWhile continuesWord).length ∧
      ∀ y, regexLength? inClass (raw ++ y) =
        some (raw.length + (y.takeWhile continuesWord).length) := by
  fun_induction regexLength? inClass s generalizing n with
  | case1 => cases h
  | case2 inClass d s ih =>
    obtain ⟨m, hm, rfl⟩ := Option.map_eq_some_iff.mp h
    obtain ⟨raw, post, rfl, rfl, hread⟩ := ih hm
    refine ⟨'\\' :: d :: raw, post, rfl, by simp only [List.length_cons]; omega, fun y => ?_⟩
    rw [List.cons_append, List.cons_append, regexLength?, hread, Option.map_some]
    simp only [List.length_cons]
    congr 1
    omega
  | case3 inClass s ih =>
    obtain ⟨m, hm, rfl⟩ := Option.map_eq_some_iff.mp h
    obtain ⟨raw, post, rfl, rfl, hread⟩ := ih hm
    refine ⟨'[' :: raw, post, rfl, by simp only [List.length_cons]; omega, fun y => ?_⟩
    rw [List.cons_append, regexLength?, hread, Option.map_some, List.length_cons,
      Nat.add_right_comm]
  | case4 inClass s ih =>
    obtain ⟨m, hm, rfl⟩ := Option.map_eq_some_iff.mp h
    obtain ⟨raw, post, rfl, rfl, hread⟩ := ih hm
    refine ⟨']' :: raw, post, rfl, by simp only [List.length_cons]; omega, fun y => ?_⟩
    rw [List.cons_append, regexLength?, hread, Option.map_some, List.length_cons,
      Nat.add_right_comm]
  | case5 inClass c s _ hopen hclose hslash =>
    cases h
    refine ⟨[c], s, rfl, Nat.add_comm _ _, fun y => ?_⟩
    have hback : ∀ d t, c = '\\' → y = d :: t → False := fun d t hc _ => by
      rw [hc] at hslash
      exact absurd hslash.1 (by decide)
    rw [List.cons_append, List.nil_append, regexLength?.eq_5 _ _ _ hback hopen hclose,
      if_pos hslash, List.length_singleton, Nat.add_comm]
  | case6 => cases h
  | case7 inClass c s _ hopen hclose hslash hbreak ih =>
    obtain ⟨m, hm, rfl⟩ := Option.map_eq_some_iff.mp h
    obtain ⟨raw, post, rfl, rfl, hread⟩ := ih hm
    refine ⟨c :: raw, post, rfl, by simp only [List.length_cons]; omega, fun y => ?_⟩
    have hback : ∀ d t, c = '\\' → raw ++ y = d :: t → False :=
      fun d t hc _ => hbreak (Or.inr hc)
    rw [List.cons_append, regexLength?.eq_5 _ _ _ hback hopen hclose, if_neg hslash,
      if_neg hbreak, hread, Option.map_some, List.length_cons, Nat.add_right_comm]

/-! ## Operators -/

/-- No operator goes on with what breaks a text. -/
theorem not_mem_tail_of_mem_operators {o : String} (ho : o ∈ operators) {c : Char}
    (hc : c ∈ '/' :: blanks) : c ∉ o.toList.tail := by
  have hall : (operators.all fun o => ('/' :: blanks).all fun c => !o.toList.tail.contains c) =
      true := by decide +kernel
  simpa using List.all_eq_true.mp (List.all_eq_true.mp hall o ho) c hc

theorem startsWith_append : ∀ {p : List Char} (s : List Char), (∀ c ∈ '/' :: blanks, c ∉ p) →
    Breaks x → Text.startsWith p (s ++ x) = Text.startsWith p s
  | [], _, _, _ => rfl
  | c :: p, [], hp, hx => by
    rcases x with _ | ⟨d, x⟩
    · rfl
    · have hne := hx.not_of (p := (· = c))
        (List.any_eq_false.mpr fun d hd hdc =>
          hp d hd (of_decide_eq_true hdc ▸ List.mem_cons_self)) d rfl
      rw [List.nil_append, Text.startsWith, Text.afterStart?,
        if_neg fun hcd => of_decide_eq_false hne hcd.symm]
      rfl
  | c :: p, d :: s, hp, hx => by
    have ih := startsWith_append s (fun c hc hm => hp c hc (List.mem_cons_of_mem _ hm)) hx
    rw [Text.startsWith, Text.startsWith] at ih ⊢
    rw [List.cons_append, Text.afterStart?, Text.afterStart?]
    split
    · exact ih
    · rfl

/-- An operator ends where the text breaks. -/
theorem operator?_append (c : Char) (s : List Char) (hx : Breaks x) :
    operator? (c :: (s ++ x)) = operator? (c :: s) := by
  unfold operator?
  refine List.find?_congr fun o ho => ?_
  have htail := fun c hc => not_mem_tail_of_mem_operators ho (c := c) hc
  cases ho' : o.toList with
  | nil => rfl
  | cons d t =>
    rw [ho', List.tail_cons] at htail
    rw [Text.startsWith, Text.startsWith, Text.afterStart?, Text.afterStart?]
    split
    · exact startsWith_append s htail hx
    · rfl

theorem length_of_operator? {c : Char} {r : List Char} {o : String}
    (h : operator? (c :: r) = some o) : o.length - 1 ≤ r.length := by
  have hlength := congrArg List.length (toList_of_operator? h)
  rw [String.length_toList, List.length_cons, List.length_take] at hlength
  omega

/-! ## Lexemes -/

/-- What ends in front of `x` lies within what is in front of `x`. -/
theorem exists_append_of_length_le {raw post : List Char} (h : s ++ x = raw ++ post)
    (hle : raw.length ≤ s.length) : ∃ t, s = raw ++ t ∧ post = t ++ x := by
  rcases List.append_eq_append_iff.mp h with ⟨t, rfl, rfl⟩ | ⟨t, rfl, rfl⟩
  · rw [List.length_append] at hle
    obtain rfl := List.eq_nil_of_length_eq_zero (l := t) (by omega)
    exact ⟨[], by simp, rfl⟩
  · exact ⟨t, rfl, rfl⟩

section Lexemes

variable {previous previous' : Option Lexeme} {pos n : Nat} {c : Char} {r : List Char} {l : Lexeme}

/-- A lexeme lies within the text. -/
theorem length_of_lexemeAt (h : lexemeAt previous pos c r = .ok (l, n)) : n ≤ r.length := by
  cases scanned_of_lexemeAt h with
  | string hquote hm =>
    obtain ⟨raw, post, rfl, rfl, -⟩ := exists_stringBody hquote hm
    simp
  | template _ _ hm =>
    obtain ⟨raw, post, rfl, rfl, -⟩ := exists_templateBody hm
    simp
  | number _ _ _ hn => exact hn ▸ numberLength_le _ r
  | regex _ _ _ _ hm =>
    obtain ⟨raw, post, rfl, rfl, -⟩ := exists_regexLength? hm
    simpa using (List.takeWhile_sublist _).length_le
  | word _ _ _ _ _ hn => exact hn ▸ (List.takeWhile_sublist _).length_le
  | operator _ _ _ _ _ ho => exact length_of_operator? ho

/-- Whether a number starts does not depend on how the text breaks. -/
theorem startsNumber_append (hx : Breaks x) (hy : Breaks y) :
    StartsNumber c (s ++ x) ↔ StartsNumber c (s ++ y) := by
  rw [StartsNumber, StartsNumber, any_isDigit_head?_append hx, any_isDigit_head?_append hy]

/-- Behind a lexeme a text that breaks may go on in any other way that breaks. -/
theorem lexemeAt_break (h : lexemeAt previous pos c (s ++ x) = .ok (l, n)) (hn : n ≤ s.length)
    (hx : Breaks x) (hy : Breaks y) (hp : regexMayFollow previous' = regexMayFollow previous)
    (pos' : Nat) : lexemeAt previous' pos' c (s ++ y) = .ok (l, n) := by
  have hstarts := startsNumber_append (c := c) (s := s) hx hy
  have htake : (s ++ x).take n = (s ++ y).take n := by
    rw [List.take_append_of_le_length hn, List.take_append_of_le_length hn]
  refine Scanned.lexemeAt_eq ?_
  cases scanned_of_lexemeAt h with
  | string hquote hm =>
    obtain ⟨raw, post, hs, rfl, hread⟩ := exists_stringBody hquote hm
    have hs : s ++ x = (raw ++ [c]) ++ post := by rw [hs, List.append_assoc]; rfl
    obtain ⟨t, rfl, -⟩ := exists_append_of_length_le hs (by simpa using hn)
    refine .string hquote ?_
    rw [List.append_assoc, List.append_assoc, List.singleton_append, hread]
  | template hquote hback hm =>
    obtain ⟨raw, post, hs, rfl, hread⟩ := exists_templateBody hm
    obtain ⟨t, rfl, -⟩ := exists_append_of_length_le hs hn
    refine .template hquote hback ?_
    rw [List.append_assoc, hread]
  | number hquote hback hnumber hlength =>
    rw [numberLength_append hx, ← numberLength_append hy] at hlength
    exact htake ▸ .number hquote hback (hstarts.mp hnumber) hlength
  | regex hquote hback hnumber hregex hm =>
    obtain ⟨raw, post, hs, rfl, hread⟩ := exists_regexLength? hm
    obtain ⟨t, rfl, rfl⟩ := exists_append_of_length_le hs (by omega)
    refine .regex hquote hback (mt hstarts.mpr hnumber) (hp ▸ hregex) ?_
    rw [List.append_assoc, hread, takeWhile_continuesWord_append hx,
      takeWhile_continuesWord_append hy]
  | word hquote hback hnumber hregex hword hlength =>
    rw [takeWhile_continuesWord_append hx, ← takeWhile_continuesWord_append hy] at hlength
    exact htake ▸ .word hquote hback (mt hstarts.mpr hnumber) (hp ▸ hregex) hword hlength
  | operator hquote hback hnumber hregex hword ho =>
    rw [operator?_append _ _ hx, ← operator?_append _ _ hy] at ho
    exact .operator hquote hback (mt hstarts.mpr hnumber) (hp ▸ hregex) hword ho

end Lexemes

end CallContract.Source
