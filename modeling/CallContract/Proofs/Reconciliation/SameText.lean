import CallContract.Proofs.Defaults
import CallContract.Proofs.Doc.DefaultTag
import CallContract.Proofs.Path.Collapse
import CallContract.Proofs.Reconciliation.Account
import CallContract.Proofs.Reconciliation.PropertyByProperty
import CallContract.Proofs.Source.Literal.Json
import CallContract.Proofs.Source.Printing.Parameters
import Mathlib

/-!
# One text for a declared and a documented default

A parameter `x = t` with a literal `t` gives a variable with the value of the literal as default
(`Defaulted.of_mem_ofPatterns`, `Defaulted.mem_keys`). A tag `[x=t]` for the parameter documents
what `t` is as JSON, or else `t` itself (`Documents.find?_params`). So the two defaults are the
same, and nothing is warned of, exactly if the literal has the value that its text has as JSON
(`Contract.mismatched_sameText`).

Strings in double quotes, truth values and null are the same in both languages. A number without a
fraction is an integer for the source language however it is written, but a double for JSON if it is
written with a point or an exponent. What is no JSON is kept as it is spelled, and a literal is
never its own spelling : any text in single quotes is warned of (`not_forall_sameText`).
-/

namespace CallContract

open Json (Value)

/-! ## Reading a parameter with a literal -/

namespace Source

variable {source : List Char} {x : String} {v : Value}

/-- Whether tokens are a literal is told by their lexemes. -/
theorem literal?_congr {ts us : List Token} (h : ts.map Token.lexeme = us.map Token.lexeme) :
    literal? ts = literal? us := by
  have hlexemes : List.Forall₂ (fun t u : Token => t.lexeme = u.lexeme) ts us := by
    rw [← List.forall₂_map_right_iff, ← List.forall₂_map_left_iff, h, List.forall₂_eq_eq_eq]
  cases hlexemes with
  | nil => rfl
  | cons ht hlexemes =>
    cases hlexemes with
    | nil => simp only [literal?, ht]
    | cons hu hlexemes =>
      cases hlexemes with
      | nil => simp only [literal?, ht, hu]
      | cons => rfl

/-- A literal is neither nothing nor goes on behind a comma or a bracket. -/
theorem inner_of_literal? {ts : List Token} (h : literal? ts = some v) :
    ts ≠ [] ∧ ∀ l ∈ ts.map Token.lexeme, Inner l := by
  have hnumber : ∀ s, Inner (.number s) := fun s => ⟨⟨rfl, rfl, by simp⟩, by simp⟩
  have hminus : Inner (.mark .minus) := ⟨⟨rfl, rfl, by simp⟩, by simp⟩
  unfold literal? at h
  split at h
  · rename_i t
    refine ⟨List.cons_ne_nil _ _, List.forall_mem_singleton.mpr ?_⟩
    cases hl : t.lexeme with
    | mark m => simp [hl] at h
    | _ => exact ⟨⟨rfl, rfl, by simp⟩, by simp⟩
  · refine ⟨List.cons_ne_nil _ _, ?_⟩
    split at h
    · rename_i hsign ht
      simp only [List.map_cons, List.map_nil, hsign, ht, List.forall_mem_cons]
      exact ⟨hminus, hnumber _, by simp⟩
    · cases h
  · cases h

/-- A name with a literal is read off its tokens as that. -/
theorem readPattern_of_literal? {tx teq : Token} {ds rest : List Token} (hx : tx.lexeme = .word x)
    (heq : teq.lexeme = .mark .assign) (hv : literal? ds = some v)
    (hrest : Stops (rest.map Token.lexeme)) : readPattern source (tx :: teq :: (ds ++ rest)) =
      .ok (.withDefault (.ident x) (.literal v), 1 + 1 + ds.length) := by
  obtain ⟨hne, hinner⟩ := inner_of_literal? hv
  have hlength := defaultLength?_of_inner hinner List.map_append hrest
  obtain ⟨k, hk⟩ := Nat.exists_eq_add_one.mpr (List.length_pos_iff.mpr hne)
  have hdefault : readDefault source (ds ++ rest) = .ok (.literal v, ds.length) := by
    rw [readDefault, hlength, List.length_map, hk]
    simp only
    rw [← hk, List.take_left, classifyDefault, hv]
    rfl
  have htarget : readTarget source (tx :: teq :: (ds ++ rest)) = .ok (.ident x, 1) := by
    rw [readTarget]
    simp only [hx]
  rw [readPattern, if_neg (by rw [hx]; simp), htarget]
  simp only [List.drop_succ_cons, List.drop_zero, withDefault, if_pos heq, hdefault]
  rfl

/-- The pattern `p` is read where tokens spell a name, an equals sign and the default `us`, in front
of a comma or a closing bracket. -/
def ReadsDefault (p : Pattern) (x : String) (us : List Token) : Prop :=
  ∃ source ts rest n, ts.map Token.lexeme =
    .word x :: .mark .assign :: (us.map Token.lexeme ++ rest) ∧ Stops rest ∧
      readPattern source ts = .ok (p, n)

/-- A name with a literal is read as that. -/
theorem ReadsDefault.eq_withDefault {p : Pattern} {us : List Token} (h : ReadsDefault p x us)
    (hv : literal? us = some v) : p = .withDefault (.ident x) (.literal v) := by
  obtain ⟨source, ts, rest, n, hlexemes, hstops, hread⟩ := h
  obtain ⟨tx, r, rfl, hx, hr⟩ := List.map_eq_cons_iff.mp hlexemes
  obtain ⟨teq, ls, rfl, heq, hls⟩ := List.map_eq_cons_iff.mp hr
  obtain ⟨ds, tail, rfl, hds, htail⟩ := List.map_eq_append_iff.mp hls
  have hliteral : literal? ds = some v := (literal?_congr hds).trans hv
  rw [readPattern_of_literal? hx heq hliteral (by rwa [htail])] at hread
  exact (Prod.mk.inj (Except.ok.inj hread)).1.symm

end Source

/-! ## The variable -/

/-- The parameter at `i` is a name with a literal of the value `v`. No other parameter binds the
name. -/
structure Defaulted (params : List Pattern) (i : Nat) (x : String) (v : Value) : Prop where
  param : params[i]? = some (.withDefault (.ident x) (.literal v))
  bound : ∀ j b, Pattern.BindsNameAt params j b → b.name = x → j = i

namespace Defaulted

variable {params : List Pattern} {i : Nat} {x : String} {v : Value}

theorem leaf (h : Defaulted params i x v) : ∀ leaf ∈ Pattern.allLeaves 0 params,
    leaf.name = x → leaf.path = .root i ∧ leaf.default = some v := by
  intro leaf hmem hname
  obtain ⟨j, p, hp, hleaf⟩ := Pattern.leaf_of_mem_allLeaves leaf hmem
  rw [Nat.zero_add] at hleaf
  obtain ⟨b, hb, hdescribes⟩ := hleaf.exists_bindsName
  obtain rfl := h.bound j b ⟨p, hp, hb⟩ (hdescribes.name.symm.trans hname)
  obtain rfl := Option.some.inj (hp.symm.trans h.param)
  cases hleaf with
  | nameDefault => exact ⟨rfl, rfl⟩
  | withDefault hne _ => exact absurd rfl (hne x)

/-- The variable of the parameter has its path and the value of the literal as default. -/
theorem of_mem_ofPatterns (h : Defaulted params i x v) :
    ∀ p, (x, p) ∈ Variables.ofPatterns params → p.path = .root i ∧ p.default = some v := by
  have hstable : Variables.Stable fun p => p.name = x → p.path = .root i ∧ p.default = some v := by
    refine ⟨fun _ _ hp => hp, fun p q hp _ hname => ?_⟩
    obtain ⟨hpath, hdefault⟩ := hp hname
    exact ⟨hpath, by simp [hdefault]⟩
  intro p hp
  obtain ⟨leaf, -, hrow⟩ := (Variables.explained_ofPatterns params).row _ hp
  exact Variables.forall_ofPatterns hstable h.leaf _ hp (hrow.name.trans hrow.key.symm)

/-- The name is not dropped unless another one falls back on it. -/
theorem mem_keys (h : Defaulted params i x v)
    (hkept : ∀ j b, Pattern.BindsNameAt params j b → b.fallback ≠ some x) :
    x ∈ (Variables.ofPatterns params).keys := by
  have hbinds : Pattern.BindsNameAt params i { name := x } := ⟨_, h.param, .nameDefault⟩
  obtain ⟨leaf, hleaf, hdescribes⟩ := hbinds.exists_leaf
  have hname : leaf.name = x := hdescribes.name
  rcases (Variables.explained_ofPatterns params).dropped leaf hleaf with hkey | hshared | hfallback
  · exact hname ▸ hkey
  · obtain ⟨p, hp, hpname, hlast, -⟩ := hshared
    rw [(h.leaf p hp (hpname.trans hname)).1, ArgPath.lastKey?_root] at hlast
    cases hlast
  · obtain ⟨p, hp, -, hother⟩ := hfallback
    obtain ⟨j, b, hb, hdescribes⟩ := Pattern.exists_bindsNameAt p hp
    exact absurd (hdescribes.otherName.symm.trans (hother.trans (congrArg some hname)))
      (hkept j b hb)

end Defaulted

/-- The parameter at `i` is declared as `x = t`, where `t` is a literal with the value `v`. No other
parameter binds the name. -/
structure Declares (params : List Pattern) (i : Nat) (x : String) (t : List Char) (v : Value) :
    Prop where
  word : Source.IsWord x
  literal : ∃ l p, Source.tokenize t = .ok l ∧ Source.literal? l.tokens = some v ∧
    params[i]? = some p ∧ Source.ReadsDefault p x l.tokens
  bound : ∀ j b, Pattern.BindsNameAt params j b → b.name = x → j = i

/-- A declared literal is read as that. -/
theorem Declares.defaulted {params : List Pattern} {i : Nat} {x : String} {t : List Char}
    {v : Value} (h : Declares params i x t v) : Defaulted params i x v := by
  obtain ⟨l, p, -, hv, hp, hread⟩ := h.literal
  exact ⟨by rw [hp, hread.eq_withDefault hv], h.bound⟩

/-! ## The documented default -/

/-- No character of a word means anything in the brackets of a tag or in its name. -/
theorem Source.IsWord.plain {x : String} (h : IsWord x) :
    (∀ c ∈ x.toList, Tag.Plain '[' ']' c) ∧ '=' ∉ x.toList ∧ '.' ∉ x.toList := by
  obtain ⟨d, r, hx, hd, hr⟩ := h.eq_cons
  have hword : ∀ c ∈ x.toList, startsWord c = true ∨ continuesWord c = true := by
    rw [hx, List.forall_mem_cons]
    exact ⟨Or.inl hd, fun c hc => Or.inr (List.takeWhile_eq_self_iff.mp hr c hc)⟩
  have hnone : ['"', '\x27', '\x60', '[', ']', '=', '.'].any
      (fun c => startsWord c || continuesWord c) = false := rfl
  have hother : ∀ c ∈ ['"', '\x27', '\x60', '[', ']', '=', '.'], c ∉ x.toList :=
    fun c hc hmem => List.any_eq_false.mp hnone c hc (by simpa using hword c hmem)
  refine ⟨fun c hc => ⟨?_, ?_, ?_⟩, hother '=' (by decide), hother '.' (by decide)⟩
  · rw [Tag.isQuote, Bool.or_eq_false_iff, Bool.or_eq_false_iff]
    simp only [decide_eq_false_iff_not]
    refine ⟨⟨?_, ?_⟩, ?_⟩ <;> rintro rfl <;> exact hother _ (by decide) hc
  · rintro rfl
    exact hother _ (by decide) hc
  · rintro rfl
    exact hother _ (by decide) hc

/-- A comment documents the argument at `i` in a line with `[x=t]`, behind whose text the bracket
closes. -/
structure Documents (c : Source.Comment) (i : Nat) (type x t : List Char) : Prop where
  line : ∃ above rest below, (Text.lines c.text.toList).map Tag.undecorated =
      above ++ Tag.defaultLine type x t rest :: below ∧
    (Doc.paramTags (Tag.ofLines above).2).countP Doc.isUndotted = i
  type : Tag.Closes '\x7b' '\x7d' type
  text : Tag.Closes '[' ']' t

section

variable {c : Source.Comment} {doc : Doc} {i : Nat} {type t : List Char} {x : String}

/-- What a text says as a documented default. -/
def Doc.written (t : List Char) : Value := (Value.read? t).getD (.string (String.ofList t))

theorem Doc.defaultValue?_of_trimmed (ht : Text.Trimmed t) :
    defaultValue? (String.ofList t) = some (written t) := by
  have hne : t.isEmpty = false := List.isEmpty_eq_false_iff.mpr ht.ne_nil
  simp only [defaultValue?, String.toList_ofList, ht.trim_eq, hne, Bool.false_eq_true, if_false]
  rfl

theorem Doc.tags_ofComment? (h : ofComment? c = some doc) :
    doc.tags = (Tag.ofLines ((Text.lines c.text.toList).map Tag.undecorated)).2 := by
  rw [ofComment?] at h
  split at h
  · rw [← Option.some.inj h, tags_ofBlock]
    rfl
  · cases h

/-- A parameter tag without a point in its name documents the argument that it counts. -/
theorem Doc.find?_params_of_line {line : List Char} {above below : List (List Char)} {tag : Tag}
    (hc : ofComment? c = some doc)
    (hlines : (Text.lines c.text.toList).map Tag.undecorated = above ++ line :: below)
    (htag : Tag.ofLine? line = some tag) (hkeyword : tag.keyword = "param")
    (hname : '.' ∉ tag.name.toList)
    (hi : (paramTags (Tag.ofLines above).2).countP isUndotted = i) :
    doc.params.find? (.root i) =
      some (parameter (.root i) (tag.extend (Tag.ofLines below).1)) := by
  have hbehind : ArgPath.root i ∉ Table.keys (tagEntries (i + 1)
      (paramTags (Tag.ofLines below).2)) := by
    rw [Table.keys, List.mem_map]
    rintro ⟨e, he, hpath⟩
    exact ne_root_of_mem_tagEntries hi e (List.mem_append_right _ he) hpath
  have hextend : (tag.extend (Tag.ofLines below).1).keyword = "param" := hkeyword
  have hundotted : '.' ∉ (tag.extend (Tag.ofLines below).1).name.toList := hname
  rw [params_ofComment? hc, tags_ofComment? hc, hlines, Tag.ofLines_append htag, paramTags_append,
    paramTags_cons hextend, tagEntries_append, hi, Nat.zero_add, tagEntries_undotted hundotted,
    Table.find?_ofList_append_cons, Table.find?_reverse_eq_none hbehind, if_pos rfl]
  rfl

/-- The parameter that is documented at the argument has what the text says as default. -/
theorem Documents.find?_params (h : Documents c i type x.toList t) (hx : Source.IsWord x)
    (ht : Text.Trimmed t) (hc : Doc.ofComment? c = some doc) :
    ∃ p, doc.params.find? (.root i) = some p ∧ p.default = some (Doc.written t) := by
  obtain ⟨above, rest, below, hlines, hi⟩ := h.line
  obtain ⟨hplain, hequals, hpoint⟩ := hx.plain
  have htag := Tag.ofLine?_defaultLine h.type hplain hequals h.text ht rest
  have hname : '.' ∉ (Tag.ofDefault type x.toList t (Text.trimEnd rest)).name.toList := by
    rw [Tag.ofDefault, String.toList_ofList]
    exact fun hmem => hpoint (Text.trim_subset _ hmem)
  refine ⟨_, Doc.find?_params_of_line hc hlines htag rfl hname hi, ?_⟩
  rw [Doc.parameter, Parameter.default_withComposite]
  exact Doc.defaultValue?_of_trimmed ht

/-- What an object type stands for never takes its place. -/
theorem Documents.find?_expanded (r : Registry) (h : Documents c i type x.toList t)
    (hx : Source.IsWord x) (ht : Text.Trimmed t) (hc : Doc.ofComment? c = some doc) :
    ∃ p, (Documented.expanded r doc.params).find? (.root i) = some p ∧
      p.default = some (Doc.written t) := by
  obtain ⟨p, hp, hdefault⟩ := h.find?_params hx ht hc
  refine ⟨p, ?_, hdefault⟩
  rw [Documented.expanded, Table.find?_foldl_insertNew, hp, Option.some_or]

end

/-! ## Warnings -/

/-- A function is warned of two defaults of a name that differ. -/
def Contract.Mismatched (r : Registry) (doc : Doc) (decl : Declaration) (x : String) : Prop :=
  ∃ a b, .defaultMismatch decl.name x a b ∈ (ofDeclaration r (some doc) decl).2

theorem Pattern.unsupported_of_mem_allGaps {function : String} {w : Warning} :
    ∀ {position : Nat} {ps : List Pattern}, w ∈ allGaps function position ps →
      ∃ kind i, w = .unsupportedPattern function kind i
  | position, p :: ps, h => by
    rcases List.mem_append.mp h with h | h
    · obtain ⟨kind, -, rfl⟩ := List.mem_map.mp h
      exact ⟨kind, position, rfl⟩
    · exact unsupported_of_mem_allGaps h

/-- The defaults of a variable and of what is documented at its path differ. -/
theorem Contract.mismatched_iff {r : Registry} {doc : Doc} {decl : Declaration} {x : String}
    (hdoc : Documented.Keyed doc.params) : Mismatched r doc decl x ↔
      ∃ leaf p a b, (x, leaf) ∈ Variables.ofPatterns decl.params ∧
        (Documented.expanded r doc.params).find? leaf.path = some p ∧
          leaf.default = some a ∧ p.default = some b ∧ a.same b = false := by
  have hdocs : ∀ d ∈ some doc, Documented.Keyed d.params := by simpa using hdoc
  obtain ⟨_, _, -, haccounted⟩ := Variables.reconcile_accounted decl.name r
    (Variables.nodup_ofPatterns decl.params) hdocs
  have hwarned : ∀ a b, .defaultMismatch decl.name x a b ∈ (ofDeclaration r (some doc) decl).2 ↔
      .defaultMismatch decl.name x a b ∈
        ((Variables.ofPatterns decl.params).reconcile decl.name (some doc) r).2 := by
    intro a b
    refine List.mem_append.trans (or_iff_right fun h => ?_)
    obtain ⟨_, _, hw⟩ := Pattern.unsupported_of_mem_allGaps h
    cases hw
  have hfind : ∀ path p, (p ∈ Variables.documented r (some doc) ∧ p.path = path) ↔
      (Documented.expanded r doc.params).find? path = some p := fun path p =>
    (Documented.Keyed.find?_eq_some_iff hdoc.expanded).symm
  constructor
  · rintro ⟨a, b, h⟩
    obtain ⟨-, leaf, hleaf, p, hp, hpath, hdefaults⟩ :=
      (haccounted.mismatch _ _ _ _).mp ((hwarned a b).mp h)
    exact ⟨leaf, p, a, b, hleaf, (hfind _ _).mp ⟨hp, hpath⟩, hdefaults⟩
  · rintro ⟨leaf, p, a, b, hleaf, hp, hdefaults⟩
    obtain ⟨hmem, hpath⟩ := (hfind _ _).mpr hp
    exact ⟨a, b, (hwarned a b).mpr ((haccounted.mismatch _ _ _ _).mpr
      ⟨rfl, leaf, hleaf, p, hmem, hpath, hdefaults⟩)⟩

section

variable {c : Source.Comment} {doc : Doc} {decl : Declaration} {i : Nat} {type t : List Char}
  {x : String} {v : Value}

theorem Contract.differ_of_mismatched {r : Registry} (hparam : Declares decl.params i x t v)
    (hdoc : Documents c i type x.toList t) (ht : Text.Trimmed t)
    (hc : Doc.ofComment? c = some doc) (h : Mismatched r doc decl x) :
    v.same (Doc.written t) = false := by
  obtain ⟨leaf, q, a, b, hleaf, hq, ha, hb, hsame⟩ := (mismatched_iff (Doc.keyed_params hc)).mp h
  obtain ⟨hpath, hvalue⟩ := hparam.defaulted.of_mem_ofPatterns leaf hleaf
  obtain ⟨p, hp, hdefault⟩ := hdoc.find?_expanded r hparam.word ht hc
  rw [hpath, hp] at hq
  obtain rfl := Option.some.inj hq
  obtain rfl := Option.some.inj (ha.symm.trans hvalue)
  rwa [Option.some.inj (hb.symm.trans hdefault)] at hsame

theorem Contract.mismatched_of_differ (r : Registry) (hparam : Declares decl.params i x t v)
    (hkept : ∀ j b, Pattern.BindsNameAt decl.params j b → b.fallback ≠ some x)
    (hdoc : Documents c i type x.toList t) (ht : Text.Trimmed t)
    (hc : Doc.ofComment? c = some doc) (hsame : v.same (Doc.written t) = false) :
    Mismatched r doc decl x := by
  obtain ⟨⟨_, leaf⟩, hleaf, rfl⟩ := List.mem_map.mp (hparam.defaulted.mem_keys hkept)
  obtain ⟨hpath, hvalue⟩ := hparam.defaulted.of_mem_ofPatterns leaf hleaf
  obtain ⟨p, hp, hdefault⟩ := hdoc.find?_expanded r hparam.word ht hc
  exact (mismatched_iff (Doc.keyed_params hc)).mpr
    ⟨leaf, p, v, _, hleaf, hpath ▸ hp, hvalue, hdefault, hsame⟩

/-- A text is JSON of a value. -/
def SaysInJson (t : List Char) (v : Value) : Prop := ∃ w, Value.read? t = some w ∧ v.same w = true

theorem saysInJson_iff {l : Source.Lexed} (hl : Source.tokenize t = .ok l)
    (hv : Source.literal? l.tokens = some v) :
    SaysInJson t v ↔ v.same (Doc.written t) = true := by
  rw [SaysInJson, Doc.written]
  cases Value.read? t with
  | none => simp [Source.not_same_spelling hl hv]
  | some w => simp

/-- A function with a parameter `x = t` that is documented as `[x=t]` is not warned of two defaults
of it if the literal `t` is JSON of the same value; otherwise it is, unless another name falls back
on `x`. JSON of a string, a truth value or null has the value of the literal. A short number of JSON
has it unless it is a double that the source language narrows to an integer. -/
theorem Contract.mismatched_sameText (r : Registry) (hparam : Declares decl.params i x t v)
    (hdoc : Documents c i type x.toList t) (ht : Text.Trimmed t)
    (hc : Doc.ofComment? c = some doc) :
    (SaysInJson t v → ¬Mismatched r doc decl x) ∧
    (¬SaysInJson t v → (∀ j b, Pattern.BindsNameAt decl.params j b → b.fallback ≠ some x) →
      Mismatched r doc decl x) ∧
    ((Value.read? t).isSome = true → (∀ k, v ≠ .number k) → SaysInJson t v) ∧
    ∀ n k, Json.Node.read? t = some (.number n) → n.Short → Json.Number.read? n = some k →
      (SaysInJson t v ↔ Source.narrowed k = k) := by
  obtain ⟨l, -, hl, hv, -⟩ := hparam.literal
  have hjson := saysInJson_iff hl hv
  refine ⟨fun h hmismatched => ?_, fun h hkept => ?_, fun hsome hnumber => ?_,
    fun n k hn hshort hk => ?_⟩
  · have hdiffer := differ_of_mismatched hparam hdoc ht hc hmismatched
    rw [hjson.mp h] at hdiffer
    cases hdiffer
  · rw [hjson, Bool.not_eq_true] at h
    exact mismatched_of_differ r hparam hkept hdoc ht hc h
  · obtain ⟨w, hw⟩ := Option.isSome_iff_exists.mp hsome
    obtain rfl := Source.literal_eq_of_read? ht hl hv hnumber hw
    exact ⟨v, hw, Source.same_self_of_literal? hv⟩
  · obtain rfl := Source.literal_eq_narrowed ht hl hv hn hshort hk
    have hw : Value.read? t = some (.number k) := by
      rw [Value.read?, hn, Option.bind_some, Value.ofNode?, hk]
      rfl
    constructor
    · rintro ⟨w, hw', hsame⟩
      obtain rfl := Option.some.inj (hw.symm.trans hw')
      exact Source.same_narrowed_iff.mp hsame
    · intro h
      exact ⟨_, hw, Source.same_narrowed_iff.mpr h⟩

end

/-- A function with a parameter that has a fraction as default. -/
def fractionDecl : Declaration where
  name := "f"
  params :=
    [.withDefault (.ident "x") (.literal (.number (.double ⟨false, 5629499534213120, -51⟩)))]
  start := 31
  stop := 57
  previousStop := none

/-- A comment that documents the parameter with the same fraction. -/
def fractionComment : Source.Comment where
  text := "* @param \x7bnumber\x7d [x=2.5] "
  isBlock := true
  start := 0
  stop := 30

theorem declares_fraction : Declares fractionDecl.params 0 "x" "2.5".toList
    (.number (.double ⟨false, 5629499534213120, -51⟩)) where
  word := Source.isWord_of_chars rfl rfl rfl
  literal := by
    refine ⟨⟨[⟨.number "2.5", 0, 3, false⟩], [], 3⟩, _, by cbv, by cbv, rfl, "x = 2.5)".toList,
      [⟨.word "x", 0, 1, false⟩, ⟨.mark .assign, 2, 3, false⟩, ⟨.number "2.5", 4, 7, false⟩,
        ⟨.mark .parenClose, 7, 8, false⟩], [.mark .parenClose], 3, rfl, ⟨_, _, rfl, Or.inr rfl⟩, ?_⟩
    cbv
  bound := by
    rintro (_ | j) b ⟨p, hp, hb⟩ hname
    · rfl
    · cases hp

theorem documents_fraction :
    Documents fractionComment 0 "number".toList "x".toList "2.5".toList where
  line := by
    have hlines : (Text.lines fractionComment.text.toList).map Tag.undecorated =
        ["@param \x7bnumber\x7d [x=2.5]".toList] := by cbv
    exact ⟨[], [], [], hlines, rfl⟩
  type := Tag.closes_of_plain rfl (by decide) (List.forall_iff_forall_mem.mp (by decide))
  text := Tag.closes_of_plain rfl (by decide) (List.forall_iff_forall_mem.mp (by decide))

theorem Contract.mismatched_sameText_fraction : ∃ doc v,
    Declares fractionDecl.params 0 "x" "2.5".toList v ∧
    Documents fractionComment 0 "number".toList "x".toList "2.5".toList ∧
    Text.Trimmed "2.5".toList ∧ Doc.ofComment? fractionComment = some doc ∧
    ¬Mismatched .empty doc fractionDecl "x" := by
  have hnode : Json.Node.read? "2.5".toList = some (.number ⟨false, ['2'], some ['5'], none⟩) := by
    cbv
  have hread : Json.Number.read? ⟨false, ['2'], some ['5'], none⟩ =
      some (.double ⟨false, 5629499534213120, -51⟩) := by decide +kernel
  have hshort : (⟨false, ['2'], some ['5'], none⟩ : Numeral).Short :=
    ⟨by simp [Numeral.digits, Nat.ofDigitChars], by decide, by decide⟩
  obtain ⟨doc, hdoc⟩ : ∃ doc, Doc.ofComment? fractionComment = some doc := ⟨_, rfl⟩
  have htrimmed : Text.Trimmed "2.5".toList := ⟨by decide, by rintro c ⟨⟩; rfl, by rintro c ⟨⟩; rfl⟩
  obtain ⟨hjson, -, -, hnumber⟩ :=
    mismatched_sameText .empty declares_fraction documents_fraction htrimmed hdoc
  exact ⟨doc, _, declares_fraction, documents_fraction, htrimmed, hdoc,
    hjson ((hnumber _ _ hnode hshort hread).mpr (by cbv))⟩

/-- A function with a parameter that is declared and documented by one text. -/
def sameText (t : String) : String :=
  "/** @param \x7bstring\x7d [x=" ++ t ++ "] */ function f(x = " ++ t ++ ") \x7b\x7d"

/-- A text in single quotes is a literal, but no JSON. -/
theorem not_forall_sameText :
    ¬∀ (t : String) (l : Source.Lexed) (v : Value), Text.Trimmed t.toList →
      Source.tokenize t.toList = .ok l → Source.literal? l.tokens = some v →
        ∀ e, extract false .empty (sameText t) = .ok e →
          ∀ a b, .defaultMismatch "f" "x" a b ∉ e.warnings := by
  intro h
  have hrun : (extract false .empty (sameText "'a'")).map Extraction.warnings =
      .ok [.defaultMismatch "f" "x" (.string "a") (.string "'a'")] := by
    have htext : sameText "'a'" =
        "/** @param \x7bstring\x7d [x='a'] */ function f(x = 'a') \x7b\x7d" := by decide +kernel
    rw [htext]
    cbv
  obtain ⟨e, he, hwarnings⟩ := Source.eq_ok_of_map_eq hrun
  have htrimmed : Text.Trimmed "'a'".toList :=
    ⟨by decide, by rintro c ⟨⟩; rfl, by rintro c ⟨⟩; rfl⟩
  refine h "'a'" ⟨[⟨.string "a", 0, 3, false⟩], [], 3⟩ (.string "a") htrimmed (by cbv) rfl e he
    (.string "a") (.string "'a'") ?_
  rw [hwarnings]
  exact List.mem_singleton_self _

end CallContract
