import CallContract.Leaves
import CallContract.Proofs.Json.RoundTrip
import CallContract.Proofs.Path.Key
import CallContract.Proofs.Variables
import Mathlib

/-!
# Paths are read back as positions and keys

A name is bound at a position and behind keys (`Pattern.BindsAt`), and its variable has the path
that spells them (`Variables.exists_bindsAt`). Reading that path back gives the position and the
keys exactly if every key is `Alone`, which means that its segment is read as the key when nothing
stands beside it, and every key but the last is `Paired`, which means that it leaves no quote open
for what follows (`Source.segments_of_readModule`).

A key without points and double quotes is both, and so is a key in double quotes that needs no
escape (`PropertyKey.alone_of_written`). A key with a point in single quotes is not alone
(`PropertyKey.not_alone_of_single`).
-/

namespace CallContract

/-! ## Keys on their own -/

namespace PropertyKey

/-- A key that is read back from its segment. -/
def Alone (k : PropertyKey) : Prop := (ArgPath.mk k.segment).segments = [k.name]

/-- A key whose segment has its double quotes in pairs. -/
def Paired (k : PropertyKey) : Prop := k.segment.toList.count '"' % 2 = 0

variable {k : PropertyKey}

theorem alone_iff (hk : k.Readable) :
    k.Alone ↔ ArgPath.Whole false k.segment.toList ∧ ArgPath.key k.segment.toList = k.name := by
  unfold Alone ArgPath.segments
  constructor
  · intro h
    rcases ArgPath.whole_or_cut k.segment.toList false with hw | ⟨a, t, hs, ha, hb⟩
    · rw [hw] at h
      exact ⟨hw, (List.cons.inj h).1⟩
    · rw [hs, ArgPath.pointPieces_of_closed t ha hb] at h
      exact absurd (List.cons.inj h).1 (key_ne_of_cut hk hs)
  · rintro ⟨hw, hkey⟩
    rw [hw, List.map_singleton, hkey]

/-- A key that stands as it is, without points and double quotes, is read back anywhere. -/
theorem alone_of_plain (hs : k.segment = k.name) (hpoint : '.' ∉ k.name.toList)
    (hquote : '"' ∉ k.name.toList) : k.Alone ∧ k.Paired := by
  rw [Alone, Paired, ArgPath.segments, hs]
  refine ⟨?_, by rw [List.count_eq_zero.mpr hquote]⟩
  have hw : ArgPath.Whole false k.name.toList := ArgPath.whole_of_not_mem hpoint false
  rw [hw, List.map_singleton]
  rcases ArgPath.key_eq_or k.name.toList with hkey | ⟨p, x, _, heq, _⟩
  · rw [hkey, String.ofList_toList]
  · rw [heq] at hquote
    exact absurd List.mem_cons_self hquote

/-- A key in double quotes is read back anywhere if no character of it needs an escape. -/
theorem alone_of_written {value spelling : String}
    (hs : spelling.toList = '"' :: (value.toList ++ ['"']))
    (h : ∀ c ∈ value.toList, c ≠ '"' ∧ c ≠ '\\' ∧ 0x20 ≤ c.toNat) :
    (quoted value spelling).Alone ∧ (quoted value spelling).Paired := by
  have hquote : '"' ∉ value.toList := fun hm => (h _ hm).1 rfl
  by_cases hpoint : '.' ∈ value.toList
  · have hseg : (quoted value spelling).segment = spelling := by simp [segment, hpoint]
    have hkey : ArgPath.key spelling.toList = value := by
      have hread := Json.Node.read?_of_spells (.string (Json.closed_escape value.toList))
      rw [Json.escape_eq_self h] at hread
      have hquoted : ArgPath.quotedKey? spelling.toList = some value := by
        have hunquote := Json.Value.unquote?_escape value
        rw [Json.escape_eq_self h] at hunquote
        rw [ArgPath.quotedKey?, hs, ← Json.Node.quoted, hread]
        exact hunquote
      have hlast : ('"' :: (value.toList ++ ['"'])).getLast? = some '"' := by
        rw [← List.cons_append, List.getLast?_concat]
      rw [ArgPath.key, hquoted]
      simp [hs, hlast]
    rw [Alone, Paired, ArgPath.segments, hseg, hs]
    have hw : ArgPath.Whole false ('"' :: (value.toList ++ ['"'])) := ArgPath.whole_quoted hquote
    refine ⟨?_, ?_⟩
    · rw [hw, List.map_singleton, ← hs, hkey]
      rfl
    · simp [List.count_eq_zero.mpr hquote]
  · have hseg : (quoted value spelling).segment = value := by simp [segment, hpoint]
    exact alone_of_plain hseg hpoint hquote

/-- A key with a point in single quotes is not read back. -/
theorem not_alone_of_single {value spelling : String} {raw : List Char}
    (hs : spelling.toList = '\x27' :: (raw ++ ['\x27']))
    (hraw : Source.Decodes '\x27' raw value.toList) (hpoint : '.' ∈ value.toList) :
    ¬(quoted value spelling).Alone := by
  have hseg : (quoted value spelling).segment = spelling := by simp [segment, hpoint]
  rw [alone_iff (.literal (Or.inr rfl) (by rw [hseg, hs]) hraw), hseg, hs]
  rintro ⟨_, hkey⟩
  rcases ArgPath.key_eq_or ('\x27' :: (raw ++ ['\x27'])) with htext | ⟨p, x, _, heq, _⟩
  · rw [htext] at hkey
    have hlen := congrArg String.length hkey
    have hle := hraw.length_le
    rw [String.length_ofList, List.length_cons, List.length_append, name,
      ← String.length_toList] at hlen
    omega
  · exact absurd (List.cons.inj heq).1 (by simp)

/-- Keys that are read back from a path : each is alone, and all but the last are paired. -/
structure Legible (ks : List PropertyKey) : Prop where
  alone : ∀ k ∈ ks, k.Alone
  paired : ∀ k ∈ ks.dropLast, k.Paired

theorem legible_nil : Legible [] :=
  ⟨fun _ hk => (List.not_mem_nil hk).elim, fun _ hk => (List.not_mem_nil hk).elim⟩

theorem legible_singleton : Legible [k] ↔ k.Alone :=
  ⟨fun h => h.alone k List.mem_cons_self,
    fun h => ⟨List.forall_mem_singleton.mpr h, fun _ hk => (List.not_mem_nil hk).elim⟩⟩

theorem legible_cons_cons {k' : PropertyKey} {ks : List PropertyKey} :
    Legible (k :: k' :: ks) ↔ (k.Alone ∧ k.Paired) ∧ Legible (k' :: ks) := by
  constructor
  · rintro ⟨halone, hpaired⟩
    rw [List.forall_mem_cons] at halone
    rw [List.dropLast_cons_cons, List.forall_mem_cons] at hpaired
    exact ⟨⟨halone.1, hpaired.1⟩, halone.2, hpaired.2⟩
  · rintro ⟨⟨hk, hp⟩, halone, hpaired⟩
    refine ⟨List.forall_mem_cons.mpr ⟨hk, halone⟩, ?_⟩
    rw [List.dropLast_cons_cons]
    exact List.forall_mem_cons.mpr ⟨hp, hpaired⟩

end PropertyKey

namespace ArgPath

/-- The path behind keys. -/
def along (p : ArgPath) (ks : List PropertyKey) : ArgPath :=
  ks.foldl (fun p k => p.child k.segment) p

/-- The text of keys behind a path. -/
def trail (ks : List PropertyKey) : List Char := ks.flatMap fun k => '.' :: k.segment.toList

theorem toList_along (p : ArgPath) (ks : List PropertyKey) :
    (p.along ks).text.toList = p.text.toList ++ trail ks := by
  induction ks generalizing p with
  | nil => simp [along, trail]
  | cons k ks ih =>
    have hchild : (p.along (k :: ks)) = (p.child k.segment).along ks := rfl
    rw [hchild, ih]
    simp [child, trail]

/-- Behind the first point, keys are read back exactly if they are legible. -/
theorem map_key_trail_iff : ∀ {k : PropertyKey} {ks : List PropertyKey},
    (∀ x ∈ k :: ks, x.Readable) →
      ((pointPieces false (k.segment.toList ++ trail ks)).map key =
        (k :: ks).map PropertyKey.name ↔ PropertyKey.Legible (k :: ks))
  | k, [], _ => by
    rw [PropertyKey.legible_singleton]
    simp [trail, PropertyKey.Alone, segments]
  | k, k' :: ks, h => by
    obtain ⟨hk, hks⟩ := List.forall_mem_cons.mp h
    have htrail : trail (k' :: ks) = '.' :: (k'.segment.toList ++ trail ks) := rfl
    rw [PropertyKey.legible_cons_cons, PropertyKey.alone_iff hk, htrail, List.map_cons]
    rcases whole_or_cut k.segment.toList false with hw | ⟨a, t, hs, ha, hb⟩
    · cases hquoted : quotedAfter false k.segment.toList with
      | false =>
        have hpaired : k.Paired := (quotedAfter_false_iff _).mp hquoted
        rw [pointPieces_of_closed _ hw hquoted, List.map_cons, List.cons.injEq,
          map_key_trail_iff hks]
        simp [hw, hpaired]
      | true =>
        have hpaired : ¬k.Paired := by
          rw [PropertyKey.Paired, ← quotedAfter_false_iff, hquoted]
          decide
        obtain ⟨u, ps, hpieces⟩ := pointPieces_of_open (k'.segment.toList ++ trail ks) hw hquoted
        rw [hpieces, List.map_cons, List.cons.injEq]
        simp [hpaired, PropertyKey.key_ne_of_drawn hk u]
    · have hnot : ¬Whole false k.segment.toList := by
        rw [Whole, hs, pointPieces_of_closed t ha hb]
        intro heq
        have hlen := congrArg List.length (List.cons.inj heq).1
        rw [List.length_append, List.length_cons] at hlen
        omega
      rw [hs, List.append_assoc, List.cons_append, pointPieces_of_closed _ ha hb, List.map_cons,
        List.cons.injEq, ← List.cons_append, ← List.append_assoc, ← hs]
      simp [hnot, PropertyKey.key_ne_of_cut hk hs]

/-- A path is read back exactly if its keys are legible. -/
theorem segments_along_iff (position : Nat) {ks : List PropertyKey} (h : ∀ k ∈ ks, k.Readable) :
    ((root position).along ks).segments = toString position :: ks.map PropertyKey.name ↔
      PropertyKey.Legible ks := by
  -- the position stands in the path like a key that is a number
  have hdigits : ∀ c ∈ (toString position).toList, c.isDigit = true :=
    fun c hc => (isDigits_toDigits position).2 c (by simpa using hc)
  have hnot : ∀ c : Char, c.isDigit = false → c ∉ (toString position).toList :=
    fun c hc hm => by rw [hdigits c hm] at hc; cases hc
  have hplain := PropertyKey.alone_of_plain (k := .number (toString position)) rfl
    (hnot '.' rfl) (hnot '"' rfl)
  have hreadable : ∀ k ∈ PropertyKey.number (toString position) :: ks, k.Readable := by
    refine List.forall_mem_cons.mpr ⟨.pointless rfl (hnot '.' rfl), h⟩
  have hread := map_key_trail_iff hreadable
  rw [segments, toList_along]
  refine hread.trans ?_
  cases ks with
  | nil => exact iff_of_true (PropertyKey.legible_singleton.mpr hplain.1) PropertyKey.legible_nil
  | cons k ks =>
    rw [PropertyKey.legible_cons_cons]
    exact and_iff_right hplain

end ArgPath

/-! ## Names in patterns -/

namespace Pattern

/-- `p.Binds ks x` : the pattern `p` binds the name `x` behind the keys `ks`. -/
inductive Binds : Pattern → List PropertyKey → String → Prop
  | ident {x : String} : Binds (.ident x) [] x
  | rest {p : Pattern} {ks : List PropertyKey} {x : String} : Binds p ks x → Binds (.rest p) ks x
  | property {ps : List PropertyPattern} {k : PropertyKey} {p : Pattern} {ks : List PropertyKey}
    {x : String} : .property k p ∈ ps → Binds p ks x → Binds (.object ps) (k :: ks) x
  | withDefault {p : Pattern} {value : DefaultExpr} {ks : List PropertyKey} {x : String} :
    Binds p ks x → Binds (.withDefault p value) ks x

/-- A name that is bound at a position of a parameter list, behind keys. -/
def BindsAt (ps : List Pattern) (position : Nat) (ks : List PropertyKey) (x : String) : Prop :=
  ∃ p, ps[position]? = some p ∧ p.Binds ks x

theorem Binds.forall_keys {K : PropertyKey → Prop} {V : Json.Value → Prop} {p : Pattern}
    {ks : List PropertyKey} {x : String} (h : p.Binds ks x) (hp : p.All K V) : ∀ k ∈ ks, K k := by
  induction h with
  | ident => exact fun _ hk => (List.not_mem_nil hk).elim
  | rest _ ih => exact ih hp
  | property hmem _ ih =>
    obtain ⟨hk, hvalue⟩ := all_of_mem_properties hp hmem
    exact List.forall_mem_cons.mpr ⟨hk, ih hvalue⟩
  | withDefault _ ih => exact ih hp.2

/-- The path of a bound name spells the keys behind which it is bound. -/
theorem Leaf.exists_binds {p : Pattern} {path : ArgPath} {leaf : Parameter}
    (h : p.Leaf path leaf) : ∃ ks, p.Binds ks leaf.name ∧ leaf.path = path.along ks := by
  induction h with
  | ident => exact ⟨[], .ident, rfl⟩
  | rest _ ih =>
    obtain ⟨ks, hks, hpath⟩ := ih
    exact ⟨ks, .rest hks, hpath⟩
  | @property _ k _ _ _ hmem _ ih =>
    obtain ⟨ks, hks, hpath⟩ := ih
    exact ⟨k :: ks, .property hmem hks, hpath⟩
  | @nameDefault x value path =>
    have hname : (value.apply { name := x, path }).name = x := by cases value <;> rfl
    have hpath : (value.apply { name := x, path }).path = path := by cases value <;> rfl
    rw [hname, hpath]
    exact ⟨[], .withDefault .ident, rfl⟩
  | withDefault _ _ ih =>
    obtain ⟨ks, hks, hpath⟩ := ih
    exact ⟨ks, .withDefault hks, hpath⟩

end Pattern

/-- Every variable has the path of a name that the parameters bind. -/
theorem Variables.exists_bindsAt {params : List Pattern} : ∀ e ∈ ofPatterns params,
    ∃ position ks, Pattern.BindsAt params position ks e.2.name ∧
      e.2.path = (ArgPath.root position).along ks := by
  refine forall_ofPatterns (Q := fun p => ∃ position ks,
    Pattern.BindsAt params position ks p.name ∧ p.path = (ArgPath.root position).along ks)
    ⟨fun _ _ h => h, fun _ _ h _ => h⟩ fun leaf hleaf => ?_
  obtain ⟨position, p, hp, hleaf⟩ := Pattern.leaf_of_mem_allLeaves leaf hleaf
  rw [Nat.zero_add] at hleaf
  obtain ⟨ks, hks, hpath⟩ := hleaf.exists_binds
  exact ⟨position, ks, ⟨p, hp, hks⟩, hpath⟩

namespace Source

/-- The path of a variable of a function leads to a name that the parameters bind. Behind keys at
a position, the path is read back as the position and the keys exactly if the keys are legible. -/
theorem segments_of_readModule {source : List Char} {file : File}
    (h : readModule source = .ok file) {d : Declaration} (hd : d ∈ file.declarations)
    {e : String × Parameter} (he : e ∈ Variables.ofPatterns d.params) :
    (∃ position ks, Pattern.BindsAt d.params position ks e.2.name ∧
      e.2.path = (ArgPath.root position).along ks) ∧
    ∀ position ks, Pattern.BindsAt d.params position ks e.2.name →
      e.2.path = (ArgPath.root position).along ks →
        (e.2.path.segments = toString position :: ks.map PropertyKey.name ↔
          PropertyKey.Legible ks) := by
  refine ⟨Variables.exists_bindsAt e he, fun position ks hbinds hpath => ?_⟩
  obtain ⟨l, _, hl, -⟩ := declarations_of_readModule h
  obtain ⟨p, hp, hks⟩ := hbinds
  have hall := all_of_readModule (V := fun _ => True) h hl (readable_of_propertyKey hl)
    (fun _ _ _ => trivial) d hd p (List.mem_of_getElem? hp)
  rw [hpath]
  exact ArgPath.segments_along_iff position (hks.forall_keys hall)

theorem segments_of_readModule_quoted_below_name :
    ∃ file d e,
      readModule "function f(\x7ba: \x7b\"b.c\": x\x7d\x7d) \x7b\x7d".toList = .ok file ∧
      d ∈ file.declarations ∧ e ∈ Variables.ofPatterns d.params ∧
      Pattern.BindsAt d.params 0 [.ident "a", .quoted "b.c" "\"b.c\""] e.2.name ∧
      e.2.path = (ArgPath.root 0).along [.ident "a", .quoted "b.c" "\"b.c\""] ∧
      e.2.path.segments = ["0", "a", "b.c"] := by
  let inner : Pattern := .object [.property (.quoted "b.c" "\"b.c\"") (.ident "x")]
  let d : Declaration := ⟨"f", [.object [.property (.ident "a") inner]], 0, 30, none⟩
  let e : String × Parameter := ("x", { name := "x", path := ⟨"0.a.\"b.c\""⟩ })
  have h : readModule "function f(\x7ba: \x7b\"b.c\": x\x7d\x7d) \x7b\x7d".toList =
      .ok ⟨[d], []⟩ := by cbv
  have hd : d ∈ [d] := List.mem_singleton_self d
  have hvars : Variables.ofPatterns d.params = [e] := rfl
  have he : e ∈ Variables.ofPatterns d.params := by
    rw [hvars]
    exact List.mem_singleton_self e
  have hbinds : Pattern.BindsAt d.params 0 [.ident "a", .quoted "b.c" "\"b.c\""] "x" :=
    ⟨_, rfl, .property List.mem_cons_self (.property List.mem_cons_self .ident)⟩
  have hpath : e.2.path = (ArgPath.root 0).along [.ident "a", .quoted "b.c" "\"b.c\""] := by cbv
  have ha := PropertyKey.alone_of_plain (k := .ident "a") rfl (by decide) (by decide)
  have hb : (PropertyKey.quoted "b.c" "\"b.c\"").Alone ∧ _ :=
    PropertyKey.alone_of_written rfl (by simp)
  refine ⟨_, d, e, h, hd, he, hbinds, hpath, ?_⟩
  refine ((segments_of_readModule h hd he).2 0 _ hbinds hpath).mpr ?_
  exact PropertyKey.legible_cons_cons.mpr ⟨ha, PropertyKey.legible_singleton.mpr hb.1⟩

/-- A quoted key with a point in single quotes is read back as two keys. -/
theorem single_quoted_key_split :
    ¬∀ (source : List Char) (file : File) (d : Declaration) (e : String × Parameter)
      (position : Nat) (ks : List PropertyKey), readModule source = .ok file →
        d ∈ file.declarations → e ∈ Variables.ofPatterns d.params →
          Pattern.BindsAt d.params position ks e.2.name →
            e.2.path = (ArgPath.root position).along ks →
              e.2.path.segments = toString position :: ks.map PropertyKey.name := by
  intro h
  let d : Declaration :=
    ⟨"f", [.object [.property (.quoted "a.b" "'a.b'") (.ident "x")]], 0, 25, none⟩
  let e : String × Parameter := ("x", { name := "x", path := ⟨"0.'a.b'"⟩ })
  have hfile : readModule "function f(\x7b'a.b': x\x7d) \x7b\x7d".toList = .ok ⟨[d], []⟩ := by cbv
  have hvars : Variables.ofPatterns d.params = [e] := rfl
  have he : e ∈ Variables.ofPatterns d.params := by
    rw [hvars]
    exact List.mem_singleton_self e
  have hsegments := h _ _ d e 0 [.quoted "a.b" "'a.b'"] hfile (List.mem_singleton_self d) he
    ⟨_, rfl, .property List.mem_cons_self .ident⟩ (by cbv)
  have hread : e.2.path.segments = ["0", "'a", "b'"] := by cbv
  rw [hread] at hsegments
  exact absurd (congrArg List.length hsegments) (by simp)

end Source

end CallContract
