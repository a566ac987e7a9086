import CallContract.Proofs.Doc.ParamPaths
import CallContract.Proofs.Path.Locate
import CallContract.Proofs.Table.Restriction

/-!
# Tags argument by argument

Parameter tags that document one argument after another, each by an undotted tag and dotted tags
right behind it, come in groups, one for each argument. The paths of the tags are those of their
keys behind the position of their group (`TagGroup.tagEntries_eq`), so what is documented at keys
behind a position is what the tag of the group there says that has these keys
(`TagGroup.find?_params`).
-/

namespace CallContract

open Association (lastOf)
open Doc (tagEntries)

/-- The keys that the name of a tag leads along; what its first segment says does not matter. -/
def Tag.keys (t : Tag) : List String :=
  ((Text.pieces '.' t.name.toList).tail).map String.ofList

theorem Tag.point_not_mem_keys (t : Tag) : ∀ key ∈ t.keys, '.' ∉ key.toList := by
  intro key hkey
  obtain ⟨p, hp, rfl⟩ := List.mem_map.mp hkey
  rw [String.toList_ofList]
  exact Text.not_mem_of_mem_pieces (List.mem_of_mem_tail hp)

/-- The tags of one argument: an undotted one for the argument itself, and dotted ones for what is
in it, no keys twice. -/
structure TagGroup where
  top : Tag
  below : List Tag
  top_undotted : '.' ∉ top.name.toList
  below_dotted : ∀ t ∈ below, '.' ∈ t.name.toList
  keys_distinct : (below.map Tag.keys).Nodup

namespace TagGroup

/-- The tags of a group, in their order. -/
def tags (g : TagGroup) : List Tag := g.top :: g.below

/-- The tag of a group that has these keys. -/
def tag? (g : TagGroup) (keys : List String) : Option Tag := g.tags.find? (·.keys == keys)

variable {g : TagGroup} {groups : List TagGroup} {n i : Nat} {t : Tag} {keys : List String}

theorem keys_top (g : TagGroup) : g.top.keys = [] := by
  rw [Tag.keys, Text.pieces_of_not_mem g.top_undotted]
  rfl

theorem keys_dotted {x rest : List Char} (h : t.name.toList = x ++ '.' :: rest) (hx : '.' ∉ x) :
    t.keys = (Text.pieces '.' rest).map String.ofList := by
  rw [Tag.keys, h, Text.pieces_append_sep _ hx]
  rfl

theorem keys_ne_nil (h : t ∈ g.below) : t.keys ≠ [] := by
  obtain ⟨x, rest, hname, hx⟩ := List.eq_append_cons_of_mem (g.below_dotted t h)
  rw [keys_dotted hname hx]
  simpa using Text.pieces_ne_nil '.' rest

theorem nodup_keys (g : TagGroup) : (g.tags.map Tag.keys).Nodup := by
  rw [tags, List.map_cons, List.nodup_cons, keys_top]
  refine ⟨fun hmem => ?_, g.keys_distinct⟩
  obtain ⟨t, ht, hkeys⟩ := List.mem_map.mp hmem
  exact keys_ne_nil ht hkeys

/-! ## Paths -/

/-- The path of a dotted tag is that of its keys. -/
theorem child_eq_locate {x rest : List Char} (h : t.name.toList = x ++ '.' :: rest)
    (hx : '.' ∉ x) (i : Nat) :
    (ArgPath.root i).child (String.ofList rest) = .locate i t.keys := by
  refine ArgPath.eq_of_toList ?_
  obtain ⟨p, ps, hpieces⟩ := List.exists_cons_of_ne_nil (Text.pieces_ne_nil '.' rest)
  have hmap : t.keys.map String.toList = Text.pieces '.' rest := by
    rw [keys_dotted h hx, List.map_map]
    exact List.map_id'' (fun s => String.toList_ofList) _
  rw [ArgPath.toList_locate, hmap, ArgPath.toList_child, String.toList_ofList, hpieces,
    Text.join_cons_cons, ← hpieces, Text.join_pieces]
  simp

/-- The entry of a tag of the argument at a position. -/
def entry (i : Nat) (t : Tag) : ArgPath × Parameter :=
  (.locate i t.keys, Doc.parameter (.locate i t.keys) t)

theorem tagEntries_below : ∀ {ts : List Tag}, (∀ t ∈ ts, '.' ∈ t.name.toList) → ∀ rest : List Tag,
    tagEntries (n + 1) (ts ++ rest) = ts.map (entry n) ++ tagEntries (n + 1) rest
  | [], _, _ => rfl
  | t :: ts, h, rest => by
    obtain ⟨ht, hts⟩ := List.forall_mem_cons.mp h
    obtain ⟨x, tail, hname, hx⟩ := List.eq_append_cons_of_mem ht
    have ih : tagEntries (n + 1) (ts ++ rest) = _ := tagEntries_below hts rest
    rw [tagEntries] at ih ⊢
    rw [List.cons_append, Doc.paramPaths_dotted hname hx, List.map_cons, ih,
      child_eq_locate hname hx]
    rfl

/-- The entries of groups, the first of which is about the argument at `n`. -/
def entries (n : Nat) : List TagGroup → List (ArgPath × Parameter)
  | [] => []
  | g :: gs => g.tags.map (entry n) ++ entries (n + 1) gs

theorem tagEntries_eq : ∀ (n : Nat) (groups : List TagGroup),
    tagEntries n (groups.flatMap tags) = entries n groups
  | n, [] => rfl
  | n, g :: groups => by
    rw [List.flatMap_cons, tags, List.cons_append, Doc.tagEntries_undotted g.top_undotted,
      tagEntries_below g.below_dotted, tagEntries_eq (n + 1) groups, entries, tags, List.map_cons,
      entry, keys_top]
    rfl

/-! ## Looking up -/

theorem le_of_mem_entries : ∀ {n : Nat} {groups : List TagGroup} {e : ArgPath × Parameter},
    e ∈ entries n groups → ∃ i t, n ≤ i ∧ e = entry i t
  | n, g :: groups, e, h => by
    rcases List.mem_append.mp h with h | h
    · obtain ⟨t, _, rfl⟩ := List.mem_map.mp h
      exact ⟨n, t, Nat.le_refl n, rfl⟩
    · obtain ⟨i, t, hle, heq⟩ := le_of_mem_entries h
      exact ⟨i, t, by omega, heq⟩

theorem nodup_entries : ∀ (n : Nat) (groups : List TagGroup), (Table.keys (entries n groups)).Nodup
  | _, [] => List.nodup_nil
  | n, g :: groups => by
    rw [entries, Table.keys, List.map_append, List.nodup_append, List.map_map]
    refine ⟨?_, nodup_entries (n + 1) groups, ?_⟩
    · have hkeys := List.pairwise_map.mp g.nodup_keys
      refine List.pairwise_map.mpr (hkeys.imp fun {t u} hne heq => hne ?_)
      exact ((ArgPath.locate_inj t.point_not_mem_keys u.point_not_mem_keys).mp heq).2
    · intro p hp q hq heq
      obtain ⟨t, _, rfl⟩ := List.mem_map.mp hp
      obtain ⟨e, he, rfl⟩ := List.mem_map.mp hq
      obtain ⟨i, u, hle, rfl⟩ := le_of_mem_entries he
      have := ((ArgPath.locate_inj t.point_not_mem_keys u.point_not_mem_keys).mp heq).1
      omega

/-- Tags of the argument at `n` say nothing about another argument. -/
theorem find?_map_entry_of_ne (hkeys : ∀ key ∈ keys, '.' ∉ key.toList) (hne : n ≠ i)
    (ts : List Tag) : Table.find? (ts.map (entry n)) (.locate i keys) = none := by
  refine Table.find?_eq_none_of_not_mem fun hmem => ?_
  obtain ⟨e, he, heq⟩ := List.mem_map.mp hmem
  obtain ⟨t, _, rfl⟩ := List.mem_map.mp he
  exact hne ((ArgPath.locate_inj t.point_not_mem_keys hkeys).mp heq).1

theorem find?_map_entry (hkeys : ∀ key ∈ keys, '.' ∉ key.toList) (n : Nat) : ∀ ts : List Tag,
    Table.find? (ts.map (entry n)) (.locate n keys) =
      (ts.find? (·.keys == keys)).map (Doc.parameter (.locate n keys))
  | [] => rfl
  | t :: ts => by
    have hiff := ArgPath.locate_inj (i := n) (j := n) t.point_not_mem_keys hkeys
    rw [List.map_cons, entry, Table.find?, find?_map_entry hkeys n ts]
    by_cases ht : t.keys = keys
    · rw [if_pos (hiff.mpr ⟨rfl, ht⟩), List.find?_cons_of_pos (by simp [ht]), Option.map_some, ht]
    · rw [if_neg fun heq => ht (hiff.mp heq).2, List.find?_cons_of_neg (by simp [ht])]

/-- Keys behind a position are documented by the tag that has them in the group there. -/
theorem find?_entries (hkeys : ∀ key ∈ keys, '.' ∉ key.toList) (n k : Nat) :
    ∀ groups : List TagGroup, Table.find? (entries n groups) (.locate (n + k) keys) =
      (groups[k]?.bind (tag? · keys)).map (Doc.parameter (.locate (n + k) keys)) := by
  intro groups
  induction groups generalizing n k with
  | nil => rfl
  | cons g groups ih =>
    rw [entries, Table.find?_append]
    cases k with
    | zero =>
      have hrest : Table.find? (entries (n + 1) groups) (.locate (n + 0) keys) = none := by
        refine Table.find?_eq_none_of_not_mem fun hmem => ?_
        obtain ⟨e, he, heq⟩ := List.mem_map.mp hmem
        obtain ⟨i, t, hle, rfl⟩ := le_of_mem_entries he
        have := ((ArgPath.locate_inj t.point_not_mem_keys hkeys).mp heq).1
        omega
      rw [hrest, Option.or_none, Nat.add_zero, find?_map_entry hkeys]
      rfl
    | succ k =>
      have hposition : n + (k + 1) = n + 1 + k := by omega
      rw [find?_map_entry_of_ne hkeys (by omega), Option.none_or, hposition, ih,
        List.getElem?_cons_succ]

/-- What a comment documents at keys behind a position, the tag does that has them in the group
there. -/
theorem find?_params {c : Source.Comment} {doc : Doc} (hdoc : Doc.ofComment? c = some doc)
    (h : Doc.paramTags doc.tags = groups.flatMap tags) (hkeys : ∀ key ∈ keys, '.' ∉ key.toList)
    (i : Nat) : doc.params.find? (.locate i keys) =
      (groups[i]?.bind (tag? · keys)).map (Doc.parameter (.locate i keys)) := by
  have hentries := find?_entries hkeys 0 i groups
  rw [Nat.zero_add] at hentries
  rw [Doc.params_ofComment? hdoc, h, tagEntries_eq, Table.ofList_of_nodup (nodup_entries 0 groups),
    hentries]

end TagGroup

end CallContract
