import CallContract.Proofs.Path.Segments

/-!
# Which bound names become variables

A pattern binds a name behind keys, below a rest element or not, and falling back on another name
or on none (`Pattern.BindsName`); nothing is bound in an array, in what cannot be read, or by what
is left over of an object. Each such name has a row, and each row is of such a name
(`Pattern.BindsName.exists_leaf`, `Pattern.Leaf.exists_bindsName`).

Rows are dropped for two reasons, and what is left takes over another name for one of them. That
every name is a variable or was dropped for a reason is kept by one step of either kind
(`Variables.Explained.dropShared`, `Variables.Explained.dropFallback`) : a name that a row took
over when another was dropped is no variable any more, so no third one is dropped for it. By
induction on the steps it holds in the end (`Variables.explained_ofPatterns`).
-/

namespace CallContract

/-! ## Names in patterns -/

/-- A name as a pattern binds it : behind keys, below a rest element or not, falling back on another
name or on none. -/
structure BoundName where
  name : String
  keys : List PropertyKey := []
  underRest : Bool := false
  fallback : Option String := none

/-- The name that a default value falls back on. -/
def DefaultExpr.fallback? : DefaultExpr → Option String
  | literal _ => none
  | name x => some x
  | coalesce x _ => some x
  | other _ => none

/-- What the row of a name says when the pattern is given the value at a path. -/
structure BoundName.Describes (b : BoundName) (path : ArgPath) (leaf : Parameter) : Prop where
  name : leaf.name = b.name
  path : leaf.path = path.along b.keys
  isRest : leaf.isRest = b.underRest
  shape : leaf.shape = if b.underRest then some .array else none
  otherName : leaf.otherName = b.fallback

namespace Pattern

/-- `p.BindsName b` : the pattern `p` binds the name `b`. -/
inductive BindsName : Pattern → BoundName → Prop
  | ident {x : String} : BindsName (.ident x) { name := x }
  | nameDefault {x : String} {value : DefaultExpr} :
    BindsName (.withDefault (.ident x) value) { name := x, fallback := value.fallback? }
  | rest {p : Pattern} {b : BoundName} : BindsName p b →
    BindsName (.rest p) { b with underRest := true }
  | property {ps : List PropertyPattern} {k : PropertyKey} {p : Pattern} {b : BoundName} :
    .property k p ∈ ps → BindsName p b → BindsName (.object ps) { b with keys := k :: b.keys }
  | withDefault {p : Pattern} {value : DefaultExpr} {b : BoundName} : (∀ x, p ≠ .ident x) →
    BindsName p b → BindsName (.withDefault p value) b

/-- A name that is bound at a position of a parameter list. -/
def BindsNameAt (ps : List Pattern) (position : Nat) (b : BoundName) : Prop :=
  ∃ p, ps[position]? = some p ∧ p.BindsName b

theorem describes_apply (x : String) (value : DefaultExpr) (path : ArgPath) :
    BoundName.Describes { name := x, fallback := value.fallback? } path
      (value.apply { name := x, path }) := by
  cases value <;> exact ⟨rfl, rfl, rfl, rfl, rfl⟩

theorem Leaf.exists_bindsName {p : Pattern} {path : ArgPath} {leaf : Parameter}
    (h : p.Leaf path leaf) : ∃ b, p.BindsName b ∧ b.Describes path leaf := by
  induction h with
  | ident => exact ⟨_, .ident, rfl, rfl, rfl, rfl, rfl⟩
  | rest _ ih =>
    obtain ⟨b, hb, hname, hpath, -, -, hother⟩ := ih
    exact ⟨_, .rest hb, hname, hpath, rfl, rfl, hother⟩
  | property hmem _ ih =>
    obtain ⟨b, hb, hname, hpath, hrest, hshape, hother⟩ := ih
    exact ⟨_, .property hmem hb, hname, hpath, hrest, hshape, hother⟩
  | nameDefault => exact ⟨_, .nameDefault, describes_apply _ _ _⟩
  | withDefault hne _ ih =>
    obtain ⟨b, hb, hdescribes⟩ := ih
    exact ⟨b, .withDefault hne hb, hdescribes⟩

theorem leaves_withDefault {p : Pattern} (h : ∀ x, p ≠ .ident x) (value : DefaultExpr)
    (path : ArgPath) : (withDefault p value).leaves path = p.leaves path := by
  rw [leaves]
  exact h

theorem mem_propertyLeaves {k : PropertyKey} {p : Pattern} {path : ArgPath} {leaf : Parameter}
    (hleaf : leaf ∈ p.leaves (path.child k.segment)) :
    ∀ {ps : List PropertyPattern}, .property k p ∈ ps → leaf ∈ propertyLeaves ps path
  | .property _ _ :: _, h => by
    rw [propertyLeaves, List.mem_append]
    rcases List.mem_cons.mp h with heq | h
    · obtain ⟨rfl, rfl⟩ := PropertyPattern.property.inj heq
      exact Or.inl hleaf
    · exact Or.inr (mem_propertyLeaves hleaf h)
  | .rest _ :: _, h => by
    rw [propertyLeaves]
    rcases List.mem_cons.mp h with heq | h
    · cases heq
    · exact mem_propertyLeaves hleaf h

theorem BindsName.exists_leaf {p : Pattern} {b : BoundName} (h : p.BindsName b) :
    ∀ path, ∃ leaf ∈ p.leaves path, b.Describes path leaf := by
  induction h with
  | @ident x =>
    intro path
    exact ⟨{ name := x, path }, by rw [leaves]; simp, rfl, rfl, rfl, rfl, rfl⟩
  | @nameDefault x value =>
    intro path
    exact ⟨_, by rw [leaves]; simp, describes_apply x value path⟩
  | rest _ ih =>
    intro path
    obtain ⟨leaf, hleaf, hname, hpath, -, -, hother⟩ := ih path
    exact ⟨leaf.asRest, by rw [leaves]; exact List.mem_map_of_mem hleaf, hname, hpath, rfl, rfl,
      hother⟩
  | @property _ k _ _ hmem _ ih =>
    intro path
    obtain ⟨leaf, hleaf, hname, hpath, hrest, hshape, hother⟩ := ih (path.child k.segment)
    exact ⟨leaf, by rw [leaves]; exact mem_propertyLeaves hleaf hmem, hname, hpath, hrest, hshape,
      hother⟩
  | withDefault hne _ ih =>
    intro path
    obtain ⟨leaf, hleaf, hdescribes⟩ := ih path
    exact ⟨leaf, by rwa [leaves_withDefault hne], hdescribes⟩

theorem mem_allLeaves {p : Pattern} {leaf : Parameter} : ∀ {ps : List Pattern} {position i : Nat},
    ps[i]? = some p → leaf ∈ p.leaves (.root (position + i)) → leaf ∈ allLeaves position ps
  | q :: ps, position, 0, hp, h => by
    obtain rfl := Option.some.inj hp
    exact List.mem_append_left _ h
  | q :: ps, position, i + 1, hp, h => by
    rw [← Nat.add_assoc, Nat.add_right_comm] at h
    exact List.mem_append_right _ (mem_allLeaves hp h)

/-- Every row is of a name that the parameters bind. -/
theorem exists_bindsNameAt {params : List Pattern} : ∀ leaf ∈ allLeaves 0 params,
    ∃ i b, BindsNameAt params i b ∧ b.Describes (.root i) leaf := by
  intro leaf hmem
  obtain ⟨i, p, hp, hleaf⟩ := leaf_of_mem_allLeaves leaf hmem
  rw [Nat.zero_add] at hleaf
  obtain ⟨b, hb, hdescribes⟩ := hleaf.exists_bindsName
  exact ⟨i, b, ⟨p, hp, hb⟩, hdescribes⟩

/-- Every name that the parameters bind has a row. -/
theorem BindsNameAt.exists_leaf {params : List Pattern} {i : Nat} {b : BoundName}
    (h : BindsNameAt params i b) : ∃ leaf ∈ allLeaves 0 params, b.Describes (.root i) leaf := by
  obtain ⟨p, hp, hb⟩ := h
  obtain ⟨leaf, hleaf, hdescribes⟩ := hb.exists_leaf (.root i)
  exact ⟨leaf, mem_allLeaves hp (by rwa [Nat.zero_add]), hdescribes⟩

end Pattern

/-! ## Dropped rows -/

namespace Variables

/-- A row called like the last key of its path, while one that is called otherwise has the path
too. -/
def SharesPath (leaves : List Parameter) (x : String) : Prop :=
  ∃ p ∈ leaves, p.name = x ∧ p.path.lastKey? = some x ∧ ∃ q ∈ leaves, q.name ≠ x ∧ q.path = p.path

/-- A row that is called otherwise falls back on the name. -/
def IsFallback (leaves : List Parameter) (x : String) : Prop :=
  ∃ p ∈ leaves, p.name ≠ x ∧ p.otherName = some x

/-- What a variable has from its row : all but its default and the word about being optional, and
but for another name that is no variable. -/
structure FromRow (vars : Variables) (e : String × Parameter) (leaf : Parameter) : Prop where
  key : e.1 = leaf.name
  name : e.2.name = leaf.name
  path : e.2.path = leaf.path
  isRest : e.2.isRest = leaf.isRest
  shape : e.2.shape = leaf.shape
  otherName : e.2.otherName = leaf.otherName ∨ ∀ x ∈ e.2.otherName, x ∉ vars.keys

/-- Every variable has a row, and every row has a variable or was dropped for a reason. -/
structure Explained (leaves : List Parameter) (vars : Variables) : Prop where
  nodup : vars.keys.Nodup
  row : ∀ e ∈ vars, ∃ leaf ∈ leaves, FromRow vars e leaf
  dropped : ∀ leaf ∈ leaves, leaf.name ∈ vars.keys ∨ SharesPath leaves leaf.name ∨
    IsFallback leaves leaf.name

variable {leaves : List Parameter} {vars vars' : Variables}

theorem FromRow.mono {e : String × Parameter} {leaf : Parameter} (h : FromRow vars e leaf)
    (hkeys : vars'.keys ⊆ vars.keys) : FromRow vars' e leaf where
  key := h.key
  name := h.name
  path := h.path
  isRest := h.isRest
  shape := h.shape
  otherName := h.otherName.imp_right fun hn x hx hmem => hn x hx (hkeys hmem)

theorem explained_ofList (leaves : List Parameter) :
    Explained leaves (Table.ofList (leaves.map fun p => (p.name, p))) where
  nodup := Table.nodup_ofList _
  row e he := by
    obtain ⟨leaf, hleaf, rfl⟩ := List.mem_map.mp (Table.mem_ofList he)
    exact ⟨leaf, hleaf, rfl, rfl, rfl, rfl, rfl, Or.inl rfl⟩
  dropped leaf hleaf := by
    exact Or.inl (Table.mem_keys_ofList.mpr (List.mem_map_of_mem (List.mem_map_of_mem hleaf)))

/-- What is left of a table without a key. -/
theorem keys_erase_modify_subset {x y : String} {f : Parameter → Parameter} :
    Table.keys ((vars.erase x).modify y f) ⊆ vars.keys := by
  rw [Table.keys_modify, Table.keys_erase]
  exact List.erase_subset

theorem Explained.mem_keys_erase_modify (h : Explained leaves vars) {x y z : String}
    {f : Parameter → Parameter} :
    z ∈ Table.keys ((vars.erase x).modify y f) ↔ z ≠ x ∧ z ∈ vars.keys := by
  rw [Table.keys_modify, Table.keys_erase, h.nodup.mem_erase_iff]

/-- Dropping a row for a reason, and changing what another one says besides what is from its own
row. -/
theorem Explained.erase_modify (h : Explained leaves vars) {x y : String}
    {f : Parameter → Parameter}
    (hx : SharesPath leaves x ∨ IsFallback leaves x)
    (hf : ∀ e ∈ vars, ∀ leaf, FromRow vars e leaf →
      FromRow ((vars.erase x).modify y f) (e.1, f e.2) leaf) :
    Explained leaves ((vars.erase x).modify y f) where
  nodup := by
    rw [Table.keys_modify]
    exact Table.nodup_erase x h.nodup
  row e he := by
    rcases Table.mem_modify he with he | ⟨p, hp, heq⟩
    · obtain ⟨leaf, hleaf, hrow⟩ := h.row e ((Table.erase_sublist x vars).subset he)
      exact ⟨leaf, hleaf, hrow.mono keys_erase_modify_subset⟩
    · have hp := (Table.erase_sublist x vars).subset hp
      obtain ⟨leaf, hleaf, hrow⟩ := h.row _ hp
      have hmodified := hf _ hp leaf hrow
      rw [← heq] at hmodified
      exact ⟨leaf, hleaf, hmodified⟩
  dropped leaf hleaf := by
    rcases h.dropped leaf hleaf with hmem | hreason
    · by_cases hname : leaf.name = x
      · exact Or.inr (hname ▸ hx)
      · exact Or.inl (h.mem_keys_erase_modify.mpr ⟨hname, hmem⟩)
    · exact Or.inr hreason

theorem Explained.dropShared (h : Explained leaves vars) (name : String) :
    Explained leaves (vars.dropShared name) := by
  unfold Variables.dropShared
  split
  · exact h
  rename_i p hp
  split
  · rename_i hlast
    split
    · exact h
    · rename_i keeper q hkeeper
      have hkept := List.find?_some hkeeper
      obtain ⟨hne, hpath⟩ := of_decide_eq_true hkept
      obtain ⟨leaf, hleaf, hrow⟩ := h.row _ (Table.mem_of_find? hp)
      obtain ⟨other, hother, hrow'⟩ := h.row _ (List.mem_of_find?_eq_some hkeeper)
      refine h.erase_modify (Or.inl ⟨leaf, hleaf, hrow.key.symm, hrow.path ▸ hlast, other, hother,
        hrow'.key ▸ hne, ?_⟩) fun e _ leaf' hrow'' => ?_
      · rw [← hrow'.path, ← hrow.path]
        exact hpath
      · refine ⟨hrow''.key, hrow''.name, hrow''.path, hrow''.isRest, hrow''.shape, ?_⟩
        -- A name that is taken over is the one that is dropped.
        cases hother' : e.2.otherName with
        | none =>
          refine Or.inr fun x hx hmem => ?_
          obtain rfl : name = x := by simpa [hother'] using hx
          exact (h.mem_keys_erase_modify.mp hmem).1 rfl
        | some x =>
          simpa [hother'] using (hrow''.mono keys_erase_modify_subset).otherName
  · exact h

theorem Explained.dropFallback (h : Explained leaves vars) (name : String) :
    Explained leaves (vars.dropFallback name) := by
  unfold Variables.dropFallback
  split
  · exact h
  rename_i fallback hfallback
  obtain ⟨p, hp, hother⟩ := Option.bind_eq_some_iff.mp hfallback
  split
  · exact h
  rename_i hne
  split
  · exact h
  · rename_i f hf
    obtain ⟨leaf, hleaf, hrow⟩ := h.row _ (Table.mem_of_find? hp)
    have hkey : fallback ∈ vars.keys := (Table.mem_keys_iff vars fallback).mpr (by rw [hf]; rfl)
    -- What is dropped is a variable, so it is the name that the row itself falls back on.
    have hown : leaf.otherName = some fallback := by
      rcases hrow.otherName with heq | hno
      · rw [← heq]
        exact hother
      · exact absurd hkey (hno fallback hother)
    refine h.erase_modify (Or.inr ⟨leaf, hleaf, hrow.key ▸ Ne.symm hne, hown⟩)
      fun e _ leaf' hrow' => ?_
    exact ⟨hrow'.key, hrow'.name, hrow'.path, hrow'.isRest, hrow'.shape,
      (hrow'.mono keys_erase_modify_subset).otherName⟩

/-- The variables once every shared path is settled, while those that others fall back on are still
there. -/
def beforeFallbacks (params : List Pattern) : Variables :=
  collapseShared (Table.ofList ((Pattern.allLeaves 0 params).map fun p => (p.name, p)))

theorem explained_beforeFallbacks (params : List Pattern) :
    Explained (Pattern.allLeaves 0 params) (beforeFallbacks params) :=
  foldl_induction (S := Explained _) (fun _ name h => h.dropShared name) _ (explained_ofList _)

/-- In the end every name is a variable or was dropped for a reason. -/
theorem explained_ofPatterns (params : List Pattern) :
    Explained (Pattern.allLeaves 0 params) (ofPatterns params) :=
  foldl_induction (S := Explained _) (fun _ name h => h.dropFallback name) _
    (explained_beforeFallbacks params)

/-! ## Variables -/

/-- Every variable is a name that the parameters bind, at the path of the keys behind which it is
bound, and takes the rest of the arguments as an array exactly if it is bound below a rest element.
Every name that the parameters bind is a variable, unless it is the last key of its path and
another name is bound at that path, or another name falls back on it. -/
theorem ofPatterns_accounted (params : List Pattern) :
    (∀ e ∈ ofPatterns params, e.2.name = e.1 ∧ ∃ i b, Pattern.BindsNameAt params i b ∧
      b.name = e.1 ∧ e.2.path = (ArgPath.root i).along b.keys ∧
      (e.2.isRest = true ↔ b.underRest = true) ∧
      (e.2.shape = some .array ↔ b.underRest = true)) ∧
    ∀ i b, Pattern.BindsNameAt params i b → b.name ∈ (ofPatterns params).keys ∨
      (∃ j c k d, Pattern.BindsNameAt params j c ∧ Pattern.BindsNameAt params k d ∧
        c.name = b.name ∧ ((ArgPath.root j).along c.keys).lastKey? = some b.name ∧
        d.name ≠ b.name ∧ (ArgPath.root k).along d.keys = (ArgPath.root j).along c.keys) ∨
      ∃ j c, Pattern.BindsNameAt params j c ∧ c.name ≠ b.name ∧ c.fallback = some b.name := by
  have hexplained := explained_ofPatterns params
  refine ⟨fun e he => ?_, fun i b hb => ?_⟩
  · obtain ⟨leaf, hleaf, hrow⟩ := hexplained.row e he
    obtain ⟨i, b, hb, hdescribes⟩ := Pattern.exists_bindsNameAt leaf hleaf
    refine ⟨hrow.name.trans hrow.key.symm, i, b, hb, ?_, ?_, ?_, ?_⟩
    · rw [hrow.key, hdescribes.name]
    · rw [hrow.path, hdescribes.path]
    · rw [hrow.isRest, hdescribes.isRest]
    · rw [hrow.shape, hdescribes.shape]
      cases b.underRest <;> simp
  · obtain ⟨leaf, hleaf, hdescribes⟩ := hb.exists_leaf
    rw [← hdescribes.name]
    rcases hexplained.dropped leaf hleaf with hmem | ⟨p, hp, hname, hlast, q, hq, hne, hpath⟩ |
      ⟨p, hp, hne, hother⟩
    · exact Or.inl hmem
    · obtain ⟨j, c, hc, hpc⟩ := Pattern.exists_bindsNameAt p hp
      obtain ⟨k, d, hd, hqd⟩ := Pattern.exists_bindsNameAt q hq
      refine Or.inr (Or.inl ⟨j, c, k, d, hc, hd, ?_, ?_, ?_, ?_⟩)
      · rw [← hpc.name, hname]
      · rw [← hpc.path, hlast]
      · rwa [← hqd.name]
      · rw [← hqd.path, ← hpc.path, hpath]
    · obtain ⟨j, c, hc, hpc⟩ := Pattern.exists_bindsNameAt p hp
      exact Or.inr (Or.inr ⟨j, c, hc, by rwa [← hpc.name], by rw [← hpc.otherName, hother]⟩)

/-- Of two names of which one falls back on the other, and a rest parameter, the one that is fallen
back on is dropped. -/
theorem ofPatterns_accounted_baudrate : ∃ params e, e ∈ ofPatterns params ∧
    (ofPatterns params).keys = ["baudrate", "rest"] ∧ e.1 = "rest" ∧
    e.2.shape = some .array ∧ ∃ i b, Pattern.BindsNameAt params i b ∧ b.name = "rest" ∧
      e.2.path = (ArgPath.root i).along b.keys ∧ b.underRest = true := by
  let params : List Pattern := [.object
    [.property (.ident "b") (.withDefault (.ident "b") (.literal (.number (.integer 9600)))),
      .property (.ident "baudrate") (.withDefault (.ident "baudrate") (.name "b"))],
    .rest (.ident "rest")]
  have hvars : (ofPatterns params).map (fun e => (e.1, e.2.shape)) =
      [("baudrate", none), ("rest", some .array)] := by decide +kernel
  have hrest : ("rest", some Shape.array) ∈ (ofPatterns params).map fun e => (e.1, e.2.shape) := by
    rw [hvars]
    decide
  obtain ⟨e, he, heq⟩ := List.mem_map.mp hrest
  obtain ⟨hname, hshape⟩ := Prod.mk.inj heq
  obtain ⟨-, i, b, hb, hbname, hpath, -, hunder⟩ := (ofPatterns_accounted params).1 e he
  have hkeys : (ofPatterns params).keys = ["baudrate", "rest"] := by
    have := congrArg (List.map Prod.fst) hvars
    rwa [List.map_map] at this
  exact ⟨params, e, he, hkeys, hname, hshape, i, b, hb, hbname.trans hname, hpath,
    hunder.mp hshape⟩

end Variables

end CallContract
