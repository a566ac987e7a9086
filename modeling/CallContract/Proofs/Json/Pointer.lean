import CallContract.Json.Value
import CallContract.Proofs.Number.Numeral
import CallContract.Proofs.Path.Locate
import CallContract.Text.Integer
import Mathlib

/-!
# Pointers

A pointer leads into a JSON value by tokens, which name a field or count an item (`Value.at?`). It
is written with a slash in front of each token; a slash and a tilde in a token are written `~1` and
`~0` (`Pointer.tokens?`). In the fragment of a reference, octets of its text can be written with a
percent sign and two digits, and have to be if the characters cannot stand in a fragment
(`Pointer.octets?`).

A reference to a field that is written with the plain name of the field leads to it exactly if all
characters of the name can stand in a fragment and none has a meaning of its own there
(`Pointer.ofReference?_eq_iff`). Otherwise the text that is read is shorter than the one that was
written, and its tokens are shorter still, or there is one more of them.
-/

namespace CallContract.Json

namespace Pointer

open Text

/-! ## Reading a reference -/

/-- Whether a character can stand for itself in the fragment of a reference. -/
def isFragmentChar (c : Char) : Bool := c.isAlphanum || "-._~!$&'()*+,;=:@/?".toList.contains c

/-- The octets of a fragment : one for a percent sign and two digits, and those of the characters
that can stand for themselves. -/
def octets? (raw : Char → Bool) : List Char → Option (List UInt8)
  | [] => some []
  | '%' :: a :: b :: s =>
    (natural? 16 [a, b]).bind fun n => (octets? raw s).map (UInt8.ofNat n :: ·)
  | c :: s =>
    if c = '%' ∨ raw c = false then none
    else (octets? raw s).map (String.utf8EncodeChar c ++ ·)

/-- The text of a fragment. -/
def decoded? (raw : Char → Bool) (s : List Char) : Option (List Char) :=
  (octets? raw s).bind fun octets => (String.fromUTF8? octets.toByteArray).map String.toList

/-- The token that is written as `s`. -/
def token? : List Char → Option (List Char)
  | [] => some []
  | '~' :: '0' :: s => (token? s).map ('~' :: ·)
  | '~' :: '1' :: s => (token? s).map ('/' :: ·)
  | c :: s => if c = '~' then none else (token? s).map (c :: ·)

/-- The tokens of a pointer. -/
def tokens? : List Char → Option (List String)
  | [] => some []
  | '/' :: s => (pieces '/' s).mapM fun p => (token? p).map String.ofList
  | _ => none

/-- The tokens of a reference into the document that it stands in. -/
def ofReference? (raw : Char → Bool) (reference : String) : Option (List String) :=
  match reference.toList with
  | '#' :: s => (decoded? raw s).bind tokens?
  | _ => none

/-- The place of an item that a token counts. -/
def index? (token : String) : Option Nat :=
  match token.toList with
  | ['0'] => some 0
  | '0' :: _ => none
  | s => natural? 10 s

end Pointer

/-- The value that a pointer leads to. -/
def Value.at? : Value → List String → Option Value
  | v, [] => some v
  | .object fs, k :: ks => (Fields.find? fs k).bind fun v => v.at? ks
  | .array vs, k :: ks => (Pointer.index? k).bind fun i => vs[i]?.bind fun v => v.at? ks
  | _, _ :: _ => none

namespace Pointer

open Text

example : ofReference? isFragmentChar "#/$defs/a~1b%20c" = some ["$defs", "a/b c"] := by
  decide +kernel

theorem index?_toString (i : Nat) : index? (toString i) = some i := by
  have htext : (toString i).toList = Nat.toDigits 10 i := by simp [Nat.repr]
  by_cases hi : i = 0
  · subst hi
    rfl
  have hhead := head?_toDigits (Nat.pos_of_ne_zero hi)
  have hread : natural? 10 (Nat.toDigits 10 i) = some i := by
    rw [natural?_of_isDigits (isDigits_toDigits i), Nat.ofDigitChars_ten_toDigits]
  rw [index?, htext]
  split
  · rename_i heq
    rw [heq] at hhead
    exact absurd rfl hhead
  · rename_i heq
    rw [heq] at hhead
    exact absurd rfl hhead
  · exact hread

/-! ## How long a text is -/

/-- The length of a text in octets. -/
def weight (s : List Char) : Nat := (s.map Char.utf8Size).sum

theorem weight_cons (c : Char) (s : List Char) : weight (c :: s) = c.utf8Size + weight s := by
  rw [weight, List.map_cons, List.sum_cons, weight]

theorem weight_append (s t : List Char) : weight (s ++ t) = weight s + weight t := by
  rw [weight, List.map_append, List.sum_append, weight, weight]

theorem length_flatMap_utf8EncodeChar : ∀ s : List Char,
    (s.flatMap String.utf8EncodeChar).length = weight s
  | [] => rfl
  | c :: s => by
    rw [List.flatMap_cons, List.length_append, String.length_utf8EncodeChar,
      length_flatMap_utf8EncodeChar s, weight_cons]

variable {raw : Char → Bool} {s t : List Char}

/-- Octets are no longer than the text that they are read off, and as long only if every character
stands for itself. -/
theorem octets?_weight {octets : List UInt8} (h : octets? raw s = some octets) :
    octets.length ≤ weight s ∧ (weight s ≤ octets.length →
      octets = s.flatMap String.utf8EncodeChar ∧ ∀ c ∈ s, raw c = true ∧ c ≠ '%') := by
  fun_induction octets? raw s generalizing octets with
  | case1 =>
    obtain rfl := Option.some.inj h
    exact ⟨Nat.le_refl 0, fun _ => ⟨rfl, fun c hc => (List.not_mem_nil hc).elim⟩⟩
  | case2 a b s ih =>
    obtain ⟨n, -, h⟩ := Option.bind_eq_some_iff.mp h
    obtain ⟨rest, hrest, rfl⟩ := Option.map_eq_some_iff.mp h
    have hle := (ih hrest).1
    have ha := a.utf8Size_pos
    rw [weight_cons, weight_cons, weight_cons, List.length_cons]
    have hpercent : '%'.utf8Size = 1 := rfl
    exact ⟨by omega, fun hge => by omega⟩
  | case3 => cases h
  | case4 c s hpercent hc ih =>
    obtain ⟨rest, hrest, rfl⟩ := Option.map_eq_some_iff.mp h
    obtain ⟨hle, heq⟩ := ih hrest
    rw [weight_cons, List.length_append, String.length_utf8EncodeChar]
    refine ⟨by omega, fun hge => ?_⟩
    obtain ⟨rfl, hall⟩ := heq (by omega)
    rw [not_or, Bool.not_eq_false] at hc
    exact ⟨rfl, List.forall_mem_cons.mpr ⟨⟨hc.2, hc.1⟩, hall⟩⟩

theorem octets?_of_raw : ∀ {s : List Char}, (∀ c ∈ s, raw c = true ∧ c ≠ '%') →
    octets? raw s = some (s.flatMap String.utf8EncodeChar)
  | [], _ => rfl
  | c :: s, h => by
    obtain ⟨⟨hraw, hc⟩, hs⟩ := List.forall_mem_cons.mp h
    rw [octets?, if_neg (by simp [hraw, hc]), octets?_of_raw hs, List.flatMap_cons]
    · rfl
    · exact fun _ _ _ heq _ => hc heq

/-! ## What is read of a text -/

/-- The text of a fragment is no longer than the fragment, and as long only if every character
stands for itself. -/
theorem decoded?_weight (h : decoded? raw s = some t) :
    weight t ≤ weight s ∧ (weight s ≤ weight t → t = s ∧ ∀ c ∈ s, raw c = true ∧ c ≠ '%') := by
  obtain ⟨octets, hoctets, h⟩ := Option.bind_eq_some_iff.mp h
  obtain ⟨text, htext, rfl⟩ := Option.map_eq_some_iff.mp h
  have hvalid : octets.toByteArray = text.toByteArray := by
    unfold String.fromUTF8? at htext
    split at htext
    · rw [← Option.some.inj htext]
      rfl
    · cases htext
  have heq : octets = text.toList.flatMap String.utf8EncodeChar := by
    rw [← String.utf8Encode_toList] at hvalid
    exact List.toByteArray_inj.mp hvalid
  have hlength : octets.length = weight text.toList := by
    rw [heq, length_flatMap_utf8EncodeChar]
  obtain ⟨hle, hself⟩ := octets?_weight hoctets
  rw [← hlength]
  refine ⟨hle, fun hge => ?_⟩
  obtain ⟨hs, hall⟩ := hself hge
  refine ⟨?_, hall⟩
  have hencode : text.toByteArray = (String.ofList s).toByteArray := by
    rw [String.toByteArray_ofList, ← hvalid, hs]
    rfl
  rw [String.toByteArray_inj.mp hencode, String.toList_ofList]

theorem decoded?_of_raw (h : ∀ c ∈ s, raw c = true ∧ c ≠ '%') : decoded? raw s = some s := by
  have hvalid : ((s.flatMap String.utf8EncodeChar).toByteArray).IsValidUTF8 := ⟨s, rfl⟩
  have hread : String.fromUTF8? (s.flatMap String.utf8EncodeChar).toByteArray =
      some (String.ofList s) := by
    rw [String.fromUTF8?, dif_pos hvalid]
    refine congrArg some (String.toByteArray_inj.mp ?_)
    rw [String.toByteArray_ofList]
    rfl
  rw [decoded?, octets?_of_raw h, Option.bind_some, hread, Option.map_some, String.toList_ofList]

/-- A token is no longer than its text, and as long only if it is its text. -/
theorem token?_weight (h : token? s = some t) :
    weight t ≤ weight s ∧ (weight s ≤ weight t → t = s ∧ '~' ∉ s) := by
  have htilde : '~'.utf8Size = 1 := rfl
  have hslash : '/'.utf8Size = 1 := rfl
  have hzero : '0'.utf8Size = 1 := rfl
  have hone : '1'.utf8Size = 1 := rfl
  fun_induction token? s generalizing t with
  | case1 =>
    obtain rfl := Option.some.inj h
    exact ⟨Nat.le_refl 0, fun _ => ⟨rfl, List.not_mem_nil⟩⟩
  | case2 s ih =>
    obtain ⟨u, hu, rfl⟩ := Option.map_eq_some_iff.mp h
    have hle := (ih hu).1
    rw [weight_cons, weight_cons, weight_cons]
    exact ⟨by omega, fun hge => by omega⟩
  | case3 s ih =>
    obtain ⟨u, hu, rfl⟩ := Option.map_eq_some_iff.mp h
    have hle := (ih hu).1
    rw [weight_cons, weight_cons, weight_cons]
    exact ⟨by omega, fun hge => by omega⟩
  | case4 => cases h
  | case5 c s _ _ hc ih =>
    obtain ⟨u, hu, rfl⟩ := Option.map_eq_some_iff.mp h
    obtain ⟨hle, hself⟩ := ih hu
    rw [weight_cons, weight_cons]
    refine ⟨by omega, fun hge => ?_⟩
    obtain ⟨rfl, hs⟩ := hself (by omega)
    exact ⟨rfl, by simp [Ne.symm hc, hs]⟩

theorem token?_of_not_mem : ∀ {s : List Char}, '~' ∉ s → token? s = some s
  | [], _ => rfl
  | c :: s, h => by
    rw [List.mem_cons, not_or] at h
    have hc : c ≠ '~' := Ne.symm h.1
    rw [token?, if_neg hc, token?_of_not_mem h.2]
    · rfl
    · exact fun _ heq _ => hc heq
    · exact fun _ heq _ => hc heq

theorem exists_cons_of_mapM {α β : Type} {f : α → Option β} {l : List α} {b : β} {bs : List β}
    (h : l.mapM f = some (b :: bs)) : ∃ a as, l = a :: as ∧ f a = some b ∧ as.mapM f = some bs := by
  cases l with
  | nil => cases h
  | cons a as =>
    rw [List.mapM_cons] at h
    obtain ⟨c, hc, h⟩ := Option.bind_eq_some_iff.mp h
    obtain ⟨cs, hcs, h⟩ := Option.bind_eq_some_iff.mp h
    obtain ⟨rfl, rfl⟩ := List.cons.inj (Option.some.inj h)
    exact ⟨a, as, rfl, hc, hcs⟩

/-- Two tokens are written with a slash in front of each. -/
theorem eq_append_of_tokens? {key name : String} (h : tokens? s = some [key, name]) :
    ∃ p q, s = '/' :: (p ++ '/' :: q) ∧ '/' ∉ q ∧ token? p = some key.toList ∧
      token? q = some name.toList := by
  unfold tokens? at h
  split at h
  · cases h
  · rename_i s
    obtain ⟨p, ps, hpieces, hp, h⟩ := exists_cons_of_mapM h
    obtain ⟨q, qs, rfl, hq, h⟩ := exists_cons_of_mapM h
    obtain rfl : qs = [] := by
      cases qs with
      | nil => rfl
      | cons a as =>
        rw [List.mapM_cons] at h
        obtain ⟨c, -, h⟩ := Option.bind_eq_some_iff.mp h
        obtain ⟨cs, -, h⟩ := Option.bind_eq_some_iff.mp h
        cases h
    have hs := join_pieces '/' s
    rw [hpieces] at hs
    have hmem : q ∈ pieces '/' s := by
      rw [hpieces]
      exact List.mem_cons_of_mem _ List.mem_cons_self
    have hof : ∀ {u : List Char} {x : String}, (token? u).map String.ofList = some x →
        token? u = some x.toList := by
      intro u x hx
      obtain ⟨w, hw, rfl⟩ := Option.map_eq_some_iff.mp hx
      rw [hw, String.toList_ofList]
    refine ⟨p, q, ?_, not_mem_of_mem_pieces hmem, hof hp, hof hq⟩
    rw [← hs]
    simp [join]
  · cases h

theorem tokens?_append {p q : List Char} (hp : '/' ∉ p ∧ '~' ∉ p) (hq : '/' ∉ q ∧ '~' ∉ q) :
    tokens? ('/' :: (p ++ '/' :: q)) = some [String.ofList p, String.ofList q] := by
  rw [tokens?, pieces_append_sep _ hp.1, pieces_of_not_mem hq.1]
  simp [token?_of_not_mem hp.2, token?_of_not_mem hq.2]

/-! ## References to fields of a field -/

/-- A character that stands for itself in a token of a reference. -/
def Plain (raw : Char → Bool) (c : Char) : Prop := raw c = true ∧ c ≠ '%' ∧ c ≠ '/' ∧ c ≠ '~'

/-- A reference that is written with the plain names of two fields leads to the second in the first
exactly if all characters of the second name stand for themselves. -/
theorem ofReference?_eq_iff {key name : String} (hslash : raw '/' = true)
    (hkey : ∀ c ∈ key.toList, Plain raw c) :
    ofReference? raw ("#/" ++ key ++ "/" ++ name) = some [key, name] ↔
      ∀ c ∈ name.toList, Plain raw c := by
  have htext : ("#/" ++ key ++ "/" ++ name).toList =
      '#' :: '/' :: (key.toList ++ '/' :: name.toList) := by simp
  rw [ofReference?, htext]
  simp only
  constructor
  · intro h
    obtain ⟨g, hg, h⟩ := Option.bind_eq_some_iff.mp h
    obtain ⟨p, q, rfl, hq, hkeyread, hnameread⟩ := eq_append_of_tokens? h
    obtain ⟨hle, hself⟩ := decoded?_weight hg
    obtain ⟨hkeyle, -⟩ := token?_weight hkeyread
    obtain ⟨hnamele, hname⟩ := token?_weight hnameread
    simp only [weight_cons, weight_append] at hle hself
    obtain ⟨-, hraw⟩ := hself (by omega)
    obtain ⟨rfl, htilde⟩ := hname (by omega)
    intro c hc
    obtain ⟨hrawc, hpercent⟩ := hraw c (by simp [hc])
    exact ⟨hrawc, hpercent, fun heq => hq (heq ▸ hc), fun heq => htilde (heq ▸ hc)⟩
  · intro h
    have hplain : ∀ c ∈ '/' :: (key.toList ++ '/' :: name.toList), raw c = true ∧ c ≠ '%' := by
      simp only [List.forall_mem_cons, List.forall_mem_append]
      have hslash : raw '/' = true ∧ '/' ≠ '%' := ⟨hslash, by decide⟩
      exact ⟨hslash, fun c hc => ⟨(hkey c hc).1, (hkey c hc).2.1⟩, hslash,
        fun c hc => ⟨(h c hc).1, (h c hc).2.1⟩⟩
    have hcut : ∀ {s : List Char}, (∀ c ∈ s, Plain raw c) → '/' ∉ s ∧ '~' ∉ s := fun hs =>
      ⟨fun hmem => (hs _ hmem).2.2.1 rfl, fun hmem => (hs _ hmem).2.2.2 rfl⟩
    rw [decoded?_of_raw hplain, Option.bind_some, tokens?_append (hcut hkey) (hcut h),
      String.ofList_toList, String.ofList_toList]

end Pointer

end CallContract.Json
