import CallContract.Proofs.Optional
import CallContract.Proofs.Path.Bindings

/-!
# Defaults that are inherited

A variable that falls back on another one takes that one over when its turn comes : the other is
dropped, and the variable has its default if it has none itself. So the rows in front of a row tell
what is left of it. A row stands if it is still there at its turn, which it is unless one of the
standing rows in front falls back on it (`Variables.standing`), and what is there after some turns
is what no standing row has taken over (`Variables.Advanced`, kept by one turn in
`Variables.Advanced.step`).

By induction along the rows, of those that fall back on one name the first that stands inherits the
default, and the others find nothing left (`Variables.inherited_default`). So a literal need not
reach all that fall back on its name (`Variables.not_forall_inherited`).
-/

namespace CallContract

/-- A parameter that has the default, and the word about being optional, of another one where it has
none itself. -/
def Parameter.inheriting (p f : Parameter) : Parameter :=
  { p with
    default := p.default.orElse fun _ => f.default
    isOptional := p.isOptional.orElse fun _ => f.isOptional }

/-- What a variable keeps of its row while it inherits. -/
structure Parameter.Keeps (row p : Parameter) : Prop where
  otherName : p.otherName = row.otherName
  default : ∀ v ∈ row.default, p.default = some v
  isOptional : ∀ b ∈ row.isOptional, p.isOptional = some b

theorem Parameter.Keeps.refl (p : Parameter) : p.Keeps p := ⟨rfl, fun _ h => h, fun _ h => h⟩

theorem Parameter.Keeps.inheriting {row p : Parameter} (h : row.Keeps p) (f : Parameter) :
    row.Keeps (p.inheriting f) where
  otherName := h.otherName
  default v hv := by rw [Parameter.inheriting, h.default v hv]; rfl
  isOptional b hb := by rw [Parameter.inheriting, h.isOptional b hb]; rfl

/-- A name with a fallback and no literal is not said to be optional. -/
theorem Pattern.Leaf.isOptional_eq_none {p : Pattern} {path : ArgPath} {leaf : Parameter}
    (h : p.Leaf path leaf) : leaf.otherName ≠ none → leaf.default = none →
      leaf.isOptional = none := by
  induction h with
  | ident => exact fun _ _ => rfl
  | rest _ ih => exact ih
  | property _ _ ih => exact ih
  | withDefault _ _ ih => exact ih
  | @nameDefault x value path =>
    cases value with
    | literal v => exact fun h _ => absurd rfl h
    | name n => exact fun _ _ => rfl
    | coalesce n v => exact fun _ h => nomatch h
    | other s => exact fun h _ => absurd rfl h

namespace Variables

variable {vars : Variables} {x y name : String} {p f : Parameter}

/-! ## One turn -/

theorem dropFallback_of_none (hp : vars.find? name = none) : vars.dropFallback name = vars := by
  rw [dropFallback, hp]
  rfl

theorem dropFallback_of_otherName (hp : vars.find? name = some p)
    (hother : ∀ y, p.otherName = some y → y = name ∨ vars.find? y = none) :
    vars.dropFallback name = vars := by
  rw [dropFallback, hp, Option.bind_some]
  cases hy : p.otherName with
  | none => rfl
  | some y =>
    simp only
    split
    · rfl
    · rename_i hne
      rw [(hother y hy).resolve_left hne]

theorem dropFallback_of_some (hp : vars.find? name = some p) (hy : p.otherName = some y)
    (hne : y ≠ name) (hf : vars.find? y = some f) : vars.dropFallback name =
      (vars.erase y).modify name fun p => p.inheriting f := by
  rw [dropFallback, hp, Option.bind_some, hy]
  simp only [hne, if_false, hf]
  rfl

/-- What one turn does : nothing, if its variable is gone, or what it falls back on is, or else it
takes that over. -/
theorem dropFallback_cases (vars : Variables) (name : String) :
    (vars.dropFallback name = vars ∧ ∀ p y, vars.find? name = some p → p.otherName = some y →
      y = name ∨ vars.find? y = none) ∨
    ∃ p y f, vars.find? name = some p ∧ p.otherName = some y ∧ y ≠ name ∧
      vars.find? y = some f ∧
        vars.dropFallback name = (vars.erase y).modify name fun p => p.inheriting f := by
  cases hp : vars.find? name with
  | none => exact Or.inl ⟨dropFallback_of_none hp, fun _ _ h => nomatch h⟩
  | some p =>
    by_cases htaken : ∃ y f, p.otherName = some y ∧ y ≠ name ∧ vars.find? y = some f
    · obtain ⟨y, f, hy, hne, hf⟩ := htaken
      exact Or.inr ⟨p, y, f, rfl, hy, hne, hf, dropFallback_of_some hp hy hne hf⟩
    · have hother : ∀ y, p.otherName = some y → y = name ∨ vars.find? y = none := by
        refine fun y hy => or_iff_not_imp_left.mpr fun hne => ?_
        exact Option.eq_none_iff_forall_ne_some.mpr fun f hf => htaken ⟨y, f, hy, hne, hf⟩
      refine Or.inl ⟨dropFallback_of_otherName hp hother, fun q y hq => ?_⟩
      obtain rfl := Option.some.inj hq
      exact hother y

/-- A turn takes away what its variable falls back on, and no other name. -/
theorem mem_keys_dropFallback (hnodup : vars.keys.Nodup) :
    x ∈ (vars.dropFallback name).keys ↔
      x ∈ vars.keys ∧ ∀ p, vars.find? name = some p → p.otherName = some x → x = name := by
  rcases dropFallback_cases vars name with ⟨heq, hnone⟩ | ⟨p, y, f, hp, hy, hne, hf, heq⟩
  · rw [heq]
    refine ⟨fun hx => ⟨hx, fun p hp hpx => ?_⟩, And.left⟩
    refine (hnone p x hp hpx).resolve_right fun hgone => ?_
    rw [Table.mem_keys_iff, hgone] at hx
    cases hx
  · rw [heq, Table.keys_modify, Table.keys_erase, hnodup.mem_erase_iff, and_comm]
    refine and_congr_right fun _ => ?_
    constructor
    · intro hxy q hq hqx
      obtain rfl := Option.some.inj (hp.symm.trans hq)
      exact absurd (Option.some.inj (hqx.symm.trans hy)) hxy
    · rintro hx rfl
      exact hne (hx p hp hy)

/-- A turn leaves the variables of other names as they are, if they stay. -/
theorem find?_dropFallback_of_ne (hnodup : vars.keys.Nodup) (hne : x ≠ name)
    (hx : x ∈ (vars.dropFallback name).keys) :
    (vars.dropFallback name).find? x = vars.find? x := by
  rcases dropFallback_cases vars name with ⟨heq, -⟩ | ⟨p, y, f, hp, hy, -, hf, heq⟩
  · rw [heq]
  · have hxy : x ≠ y := by
      rintro rfl
      exact hne (((mem_keys_dropFallback hnodup).mp hx).2 p hp hy)
    rw [heq, Table.find?_modify_of_ne _ hne, Table.find?_erase_of_ne hxy]

theorem find?_dropFallback_self (hp : vars.find? name = some p) :
    ∃ p', (vars.dropFallback name).find? name = some p' ∧ (p' = p ∨ ∃ f, p' = p.inheriting f) := by
  rcases dropFallback_cases vars name with ⟨heq, -⟩ | ⟨q, y, f, -, -, hne, -, heq⟩
  · exact ⟨p, by rw [heq, hp], Or.inl rfl⟩
  · refine ⟨p.inheriting f, ?_, Or.inr ⟨f, rfl⟩⟩
    rw [heq, Table.find?_modify_self, Table.find?_erase_of_ne (Ne.symm hne), hp]
    rfl

theorem find?_foldl_dropFallback : ∀ {names : List String} {vars : Variables}, vars.keys.Nodup →
    x ∉ names → x ∈ (names.foldl dropFallback vars).keys →
      Table.find? (names.foldl dropFallback vars) x = vars.find? x
  | [], _, _, _, _ => rfl
  | y :: names, vars, hnodup, hx, hmem => by
    rw [List.mem_cons, not_or] at hx
    have hrest : Table.find? (names.foldl dropFallback (vars.dropFallback y)) x =
        (vars.dropFallback y).find? x :=
      find?_foldl_dropFallback (nodup_dropFallback y hnodup) hx.2 hmem
    refine hrest.trans (find?_dropFallback_of_ne hnodup hx.1 ?_)
    rw [Table.mem_keys_iff, ← hrest, ← Table.mem_keys_iff]
    exact hmem

/-! ## Turn after turn -/

/-- The rows that are there when their turn comes : those that no standing row in front falls back
on. -/
def standing (rows : List Parameter) : List Parameter :=
  rows.foldl (fun stood p =>
    if stood.any fun q => q.otherName = some p.name then stood else stood ++ [p]) []

theorem standing_concat (front : List Parameter) (p : Parameter) : standing (front ++ [p]) =
    if (standing front).any fun q => q.otherName = some p.name then standing front
    else standing front ++ [p] := by
  rw [standing, List.foldl_append]
  rfl

theorem mem_of_mem_standing {q : Parameter} {rows : List Parameter} (h : q ∈ standing rows) :
    q ∈ rows := by
  induction rows using List.reverseRecOn with
  | nil => cases h
  | append_singleton front p ih =>
    rw [standing_concat] at h
    split at h
    · exact List.mem_append_left _ (ih h)
    · rcases List.mem_append.mp h with h | h
      · exact List.mem_append_left _ (ih h)
      · exact List.mem_append_right _ h

variable {rows front behind : List Parameter}

theorem name_ne_of_mem_front (hnames : (rows.map fun p => p.name).Nodup)
    (hrows : rows = front ++ p :: behind) {q : Parameter} (hq : q ∈ front) : q.name ≠ p.name := by
  rw [hrows, List.map_append, List.map_cons] at hnames
  exact (List.nodup_append.mp hnames).2.2 _ (List.mem_map_of_mem hq) _ List.mem_cons_self

/-- What is there of all rows after the turns of those in front. -/
structure Advanced (rows front : List Parameter) (vars : Variables) : Prop where
  nodup : vars.keys.Nodup
  /-- What is there is what no standing row has taken over. -/
  mem : ∀ p ∈ rows, p.name ∈ vars.keys ↔
    ∀ q ∈ standing front, q.otherName = some p.name → q.name = p.name
  keeps : ∀ p ∈ rows, ∀ p', vars.find? p.name = some p' → p.Keeps p'
  /-- A row whose turn has not come has inherited nothing. -/
  untouched : ∀ p ∈ rows, p ∉ front → p.name ∈ vars.keys → vars.find? p.name = some p

theorem advanced_nil (hnames : (rows.map fun p => p.name).Nodup) :
    Advanced rows [] (rows.map fun p => (p.name, p)) := by
  have hkeys : (Table.keys (rows.map fun p => (p.name, p))).Nodup := by
    rwa [Table.keys, List.map_map]
  have hfind : ∀ p ∈ rows, Table.find? (rows.map fun p => (p.name, p)) p.name = some p :=
    fun p hp => (Table.find?_eq_some_iff hkeys).mpr (List.mem_map_of_mem hp)
  refine ⟨hkeys, fun p hp => ?_, fun p hp p' hp' => ?_, fun p hp _ _ => hfind p hp⟩
  · refine iff_of_true ?_ fun q hq => (List.not_mem_nil hq).elim
    rw [Table.mem_keys_iff, hfind p hp]
    rfl
  · rw [hfind p hp] at hp'
    exact Option.some.inj hp' ▸ Parameter.Keeps.refl p

/-- A row is there at its turn if no standing row in front falls back on it. -/
theorem Advanced.mem_keys_iff (hnames : (rows.map fun p => p.name).Nodup)
    (hrows : rows = front ++ p :: behind) (h : Advanced rows front vars) :
    p.name ∈ vars.keys ↔ ((standing front).any fun q => q.otherName = some p.name) = false := by
  rw [h.mem p (by simp [hrows]), List.any_eq_false]
  refine forall₂_congr fun q hq => ?_
  rw [decide_eq_true_iff]
  have hne := name_ne_of_mem_front hnames hrows (mem_of_mem_standing hq)
  exact imp_congr_right fun _ => iff_false_intro hne

/-- A row that is there at its turn has inherited nothing. -/
theorem Advanced.find?_of_mem (hnames : (rows.map fun p => p.name).Nodup)
    (hrows : rows = front ++ p :: behind) (h : Advanced rows front vars)
    (hstands : p.name ∈ vars.keys) : vars.find? p.name = some p := by
  have hfront : p ∉ front := fun hmem => name_ne_of_mem_front hnames hrows hmem rfl
  exact h.untouched p (by simp [hrows]) hfront hstands

/-- If a row stands, its turn takes over what it falls back on, and if not, nothing. -/
theorem Advanced.mem_step (hnames : (rows.map fun p => p.name).Nodup)
    (hrows : rows = front ++ p :: behind) (h : Advanced rows front vars) {r : Parameter}
    (hr : r ∈ rows) : r.name ∈ (vars.dropFallback p.name).keys ↔
      ∀ q ∈ standing (front ++ [p]), q.otherName = some r.name → q.name = r.name := by
  rw [mem_keys_dropFallback h.nodup, h.mem r hr, standing_concat]
  have hthere := h.mem_keys_iff hnames hrows
  by_cases hstands : p.name ∈ vars.keys
  · rw [hthere.mp hstands, if_neg Bool.false_ne_true, List.forall_mem_append]
    refine and_congr_right fun _ => ?_
    simp only [h.find?_of_mem hnames hrows hstands, Option.some.injEq, forall_eq',
      List.mem_singleton, forall_eq]
    exact imp_congr_right fun _ => eq_comm
  · rw [if_pos (Bool.eq_true_of_not_eq_false (hthere.not.mp hstands))]
    refine and_iff_left fun q hq => ?_
    rw [Table.mem_keys_iff, hq] at hstands
    exact absurd rfl hstands

/-- What one turn does to the rows that are there. -/
theorem Advanced.step (hnames : (rows.map fun p => p.name).Nodup)
    (hrows : rows = front ++ p :: behind) (h : Advanced rows front vars) :
    Advanced rows (front ++ [p]) (vars.dropFallback p.name) := by
  have hinj : ∀ r ∈ rows, r.name = p.name → r = p := fun r hr heq =>
    List.inj_on_of_nodup_map hnames hr (by simp [hrows]) heq
  refine ⟨nodup_dropFallback _ h.nodup, fun r hr => h.mem_step hnames hrows hr,
    fun r hr r' hr' => ?_, fun r hr hrfront hmem => ?_⟩
  · have hmem : r.name ∈ (vars.dropFallback p.name).keys :=
      (Table.mem_keys_iff _ _).mpr (by rw [hr']; rfl)
    by_cases hrp : r.name = p.name
    · obtain rfl := hinj r hr hrp
      have hstands := ((mem_keys_dropFallback h.nodup).mp hmem).1
      obtain ⟨p', hp', hcases⟩ := find?_dropFallback_self (h.find?_of_mem hnames hrows hstands)
      obtain rfl := Option.some.inj (hr'.symm.trans hp')
      rcases hcases with rfl | ⟨f, rfl⟩
      · exact Parameter.Keeps.refl _
      · exact (Parameter.Keeps.refl r).inheriting f
    · rw [find?_dropFallback_of_ne h.nodup hrp hmem] at hr'
      exact h.keeps r hr r' hr'
  · rw [List.mem_append, not_or, List.mem_singleton] at hrfront
    have hne : r.name ≠ p.name := fun heq => hrfront.2 (hinj r hr heq)
    rw [find?_dropFallback_of_ne h.nodup hne hmem]
    exact h.untouched r hr hrfront.1 ((mem_keys_dropFallback h.nodup).mp hmem).1

/-- The turns of rows that follow each other. -/
theorem Advanced.foldl (hnames : (rows.map fun p => p.name).Nodup) :
    ∀ {more front behind : List Parameter} {vars : Variables},
      rows = front ++ more ++ behind → Advanced rows front vars →
        Advanced rows (front ++ more) ((more.map fun p => p.name).foldl dropFallback vars)
  | [], _, _, _, _, h => by rwa [List.append_nil]
  | p :: more, front, behind, vars, hrows, h => by
    have hnext : rows = front ++ p :: (more ++ behind) := by rw [hrows]; simp
    have hmore : rows = (front ++ [p]) ++ more ++ behind := by rw [hrows]; simp
    have hrest := Advanced.foldl hnames hmore (h.step hnames hnext)
    rwa [List.append_assoc, List.singleton_append] at hrest

/-- At its turn a row inherits from what it falls back on, unless another standing row in front has
taken that over. -/
theorem Advanced.find?_step (hnames : (rows.map fun p => p.name).Nodup)
    (hrows : rows = front ++ p :: behind) (h : Advanced rows front vars) {row p' : Parameter}
    (hrow : row ∈ rows) (hother : p.otherName = some row.name) (hne : row.name ≠ p.name)
    (hp' : (vars.dropFallback p.name).find? p.name = some p') :
    ((∀ q ∈ standing front, q.otherName = some row.name → q = row) →
      ∃ f, row.Keeps f ∧ p' = p.inheriting f) ∧
    ((∃ q ∈ standing front, q ≠ row ∧ q.otherName = some row.name) → p' = p) := by
  have hstands := ((mem_keys_dropFallback h.nodup).mp
    ((Table.mem_keys_iff _ _).mpr (by rw [hp']; rfl))).1
  have hfind := h.find?_of_mem hnames hrows hstands
  have htaken : row.name ∈ vars.keys ↔
      ∀ q ∈ standing front, q.otherName = some row.name → q = row := by
    refine (h.mem row hrow).trans (forall₂_congr fun q hq => imp_congr_right fun _ => ?_)
    have hqrows : q ∈ rows := by simp [hrows, mem_of_mem_standing hq]
    exact ⟨List.inj_on_of_nodup_map hnames hqrows hrow, congrArg _⟩
  constructor
  · intro hfree
    obtain ⟨f, hf⟩ := Option.isSome_iff_exists.mp ((Table.mem_keys_iff _ _).mp (htaken.mpr hfree))
    rw [dropFallback_of_some hfind hother hne hf, Table.find?_modify_self,
      Table.find?_erase_of_ne hne.symm, hfind] at hp'
    exact ⟨f, h.keeps row hrow f hf, (Option.some.inj hp').symm⟩
  · rintro ⟨q, hq, hqne, hqrow⟩
    have hgone : vars.find? row.name = none := by
      rw [← Option.not_isSome_iff_eq_none, ← Table.mem_keys_iff, htaken]
      exact fun hfree => hqne (hfree q hq hqrow)
    have hsame : vars.dropFallback p.name = vars := by
      refine dropFallback_of_otherName hfind fun y hy => Or.inr ?_
      rwa [Option.some.inj (hy.symm.trans hother)]
    rw [hsame, hfind] at hp'
    exact (Option.some.inj hp').symm

/-! ## Variables -/

theorem ofPatterns_of_nodup {params : List Pattern}
    (hnames : ((Pattern.allLeaves 0 params).map fun p => p.name).Nodup)
    (hpaths : ((Pattern.allLeaves 0 params).map fun p => p.path).Nodup) :
    ofPatterns params = ((Pattern.allLeaves 0 params).map fun p => p.name).foldl dropFallback
      ((Pattern.allLeaves 0 params).map fun p => (p.name, p)) := by
  have hkeys : Table.keys ((Pattern.allLeaves 0 params).map fun p => (p.name, p)) =
      (Pattern.allLeaves 0 params).map fun p => p.name := by
    rw [Table.keys, List.map_map]
    rfl
  rw [ofPatterns, Table.ofList_of_nodup (by rwa [hkeys]), collapseShared_eq_self (by rwa [hkeys]),
    collapseFallbacks, hkeys]
  rwa [List.map_map]

/-- What is left of a row is what its own turn left of it. -/
theorem exists_advanced {params : List Pattern}
    (hnames : ((Pattern.allLeaves 0 params).map fun p => p.name).Nodup)
    (hpaths : ((Pattern.allLeaves 0 params).map fun p => p.path).Nodup)
    (hrows : Pattern.allLeaves 0 params = front ++ p :: behind)
    (hstays : p.name ∈ (ofPatterns params).keys) :
    ∃ vars, Advanced (Pattern.allLeaves 0 params) front vars ∧
      (ofPatterns params).find? p.name = (vars.dropFallback p.name).find? p.name := by
  have hnil : Pattern.allLeaves 0 params = [] ++ front ++ p :: behind := hrows
  have hadvanced := (advanced_nil hnames).foldl hnames hnil
  refine ⟨_, hadvanced, ?_⟩
  rw [ofPatterns_of_nodup hnames hpaths] at hstays ⊢
  generalize (Pattern.allLeaves 0 params).map (fun p => (p.name, p)) = vars at *
  have hturns : (Pattern.allLeaves 0 params).map (fun p => p.name) =
      front.map (fun p => p.name) ++ p.name :: behind.map fun p => p.name := by
    rw [hrows, List.map_append, List.map_cons]
  have hbehind : p.name ∉ behind.map fun p => p.name := by
    rw [hturns] at hnames
    exact (List.nodup_cons.mp (List.nodup_append.mp hnames).2.1).1
  rw [hturns, List.foldl_append, List.foldl_cons] at hstays ⊢
  exact find?_foldl_dropFallback (nodup_dropFallback _ hadvanced.nodup) hbehind hstays

/-- The names and the paths that parameters bind are distinct. A row `y` has a literal, and a row
`x` without a default of its own falls back on its name. If `x` stays a variable, it has the literal
as its default and is optional exactly if no other row in front of it that is there at its turn
falls back on `y` too, and has no default if one does. -/
theorem inherited_default {params : List Pattern} {front behind : List Parameter}
    {x y : Parameter} {v : Json.Value} {e : String × Parameter}
    (hnames : ((Pattern.allLeaves 0 params).map fun p => p.name).Nodup)
    (hpaths : ((Pattern.allLeaves 0 params).map fun p => p.path).Nodup)
    (hrows : Pattern.allLeaves 0 params = front ++ x :: behind)
    (hy : y ∈ Pattern.allLeaves 0 params) (hliteral : y.default = some v)
    (hx : x.otherName = some y.name ∧ x.default = none)
    (he : e ∈ ofPatterns params) (hname : e.1 = x.name) :
    ((∀ q ∈ standing front, q.otherName = some y.name → q = y) →
      e.2.default = some v ∧ e.2.isOptional = some true) ∧
    ((∃ q ∈ standing front, q ≠ y ∧ q.otherName = some y.name) →
      e.2.default = none ∧ e.2.isOptional = none) := by
  have hxmem : x ∈ Pattern.allLeaves 0 params := by simp [hrows]
  obtain ⟨i, p, -, hxleaf⟩ := Pattern.leaf_of_mem_allLeaves x hxmem
  obtain ⟨j, q, -, hyleaf⟩ := Pattern.leaf_of_mem_allLeaves y hy
  have hxoptional : x.isOptional = none :=
    hxleaf.isOptional_eq_none (by rw [hx.1]; exact Option.some_ne_none _) hx.2
  have hyoptional : y.isOptional = some true :=
    hyleaf.boundOptional.optional (by rw [hliteral]; rfl)
  have hne : y.name ≠ x.name := fun heq => by
    rw [List.inj_on_of_nodup_map hnames hy hxmem heq, hx.2] at hliteral
    cases hliteral
  have hfind := (Table.find?_eq_some_iff (nodup_ofPatterns params)).mpr he
  rw [hname] at hfind
  obtain ⟨vars, hadvanced, hturn⟩ :=
    exists_advanced hnames hpaths hrows (hname ▸ List.mem_map_of_mem he)
  rw [hturn] at hfind
  obtain ⟨hfree, htaken⟩ := hadvanced.find?_step hnames hrows hy hx.1 hne hfind
  refine ⟨fun h => ?_, fun h => ?_⟩
  · obtain ⟨f, hf, heq⟩ := hfree h
    rw [heq, Parameter.inheriting, hx.2, hxoptional]
    exact ⟨hf.default v hliteral, hf.isOptional true hyoptional⟩
  · rw [htaken h]
    exact ⟨hx.2, hxoptional⟩

/-- Three parameters, of which two fall back on the first. -/
def twoFallBack : List Pattern :=
  [.withDefault (.ident "y") (.literal (.number (.integer 1))),
    .withDefault (.ident "a") (.name "y"), .withDefault (.ident "b") (.name "y")]

theorem allLeaves_twoFallBack : Pattern.allLeaves 0 twoFallBack =
    [{ name := "y", path := ⟨"0"⟩, default := some (.number (.integer 1))
       isOptional := some true },
      { name := "a", path := ⟨"1"⟩, otherName := some "y" },
      { name := "b", path := ⟨"2"⟩, otherName := some "y" }] := by cbv

theorem nodup_twoFallBack : ((Pattern.allLeaves 0 twoFallBack).map fun p => p.name).Nodup ∧
    ((Pattern.allLeaves 0 twoFallBack).map fun p => p.path).Nodup := by
  rw [allLeaves_twoFallBack]
  decide

/-- The first of the two inherits the literal, and the other one is left without. -/
theorem inherited_default_twoFallBack : ∃ e ∈ ofPatterns twoFallBack, ∃ f ∈ ofPatterns twoFallBack,
    e.1 = "a" ∧ e.2.default = some (.number (.integer 1)) ∧ e.2.isOptional = some true ∧
    f.1 = "b" ∧ f.2.default = none ∧ f.2.isOptional = none := by
  obtain ⟨hnames, hpaths⟩ := nodup_twoFallBack
  have hkeys : (ofPatterns twoFallBack).keys = ["a", "b"] := by cbv
  obtain ⟨e, he, hename⟩ := List.mem_map.mp (hkeys ▸ List.mem_cons_self : "a" ∈ _)
  obtain ⟨f, hf, hfname⟩ := List.mem_map.mp
    (hkeys ▸ List.mem_cons_of_mem _ List.mem_cons_self : "b" ∈ _)
  let y : Parameter :=
    { name := "y", path := ⟨"0"⟩, default := some (.number (.integer 1)), isOptional := some true }
  let a : Parameter := { name := "a", path := ⟨"1"⟩, otherName := some "y" }
  let b : Parameter := { name := "b", path := ⟨"2"⟩, otherName := some "y" }
  have ha : Pattern.allLeaves 0 twoFallBack = [y] ++ a :: [b] := allLeaves_twoFallBack
  have hb : Pattern.allLeaves 0 twoFallBack = [y, a] ++ b :: [] := allLeaves_twoFallBack
  have hy : y ∈ Pattern.allLeaves 0 twoFallBack := ha ▸ List.mem_cons_self
  have hfirst := (inherited_default hnames hpaths ha hy rfl ⟨rfl, rfl⟩ he hename).1
    (by simp [standing, y])
  have hsecond := (inherited_default hnames hpaths hb hy rfl ⟨rfl, rfl⟩ hf hfname).2
    (by simp [standing, y, a])
  exact ⟨e, he, f, hf, hename, hfirst.1, hfirst.2, hfname, hsecond.1, hsecond.2⟩

/-- A variable that falls back on a literal can be without a default. -/
theorem not_forall_inherited :
    ¬∀ (params : List Pattern) (x y : Parameter) (v : Json.Value) (e : String × Parameter),
      ((Pattern.allLeaves 0 params).map fun p => p.name).Nodup →
      ((Pattern.allLeaves 0 params).map fun p => p.path).Nodup →
      x ∈ Pattern.allLeaves 0 params → y ∈ Pattern.allLeaves 0 params →
      y.default = some v → x.otherName = some y.name ∧ x.default = none →
      e ∈ ofPatterns params → e.1 = x.name →
        e.2.default = some v ∧ e.2.isOptional = some true := by
  intro h
  have hvars : (ofPatterns twoFallBack).map (fun e => (e.1, e.2.default)) =
      [("a", some (.number (.integer 1))), ("b", none)] := by cbv
  have hb : ("b", none) ∈ (ofPatterns twoFallBack).map fun e => (e.1, e.2.default) := by
    rw [hvars]
    exact List.mem_cons_of_mem _ List.mem_cons_self
  obtain ⟨e, he, heq⟩ := List.mem_map.mp hb
  obtain ⟨hname, hdefault⟩ := Prod.mk.inj heq
  have hinherited := h twoFallBack { name := "b", path := ⟨"2"⟩, otherName := some "y" }
    { name := "y", path := ⟨"0"⟩, default := some (.number (.integer 1)), isOptional := some true }
    _ e nodup_twoFallBack.1 nodup_twoFallBack.2 (by simp [allLeaves_twoFallBack])
    (by simp [allLeaves_twoFallBack])
    rfl ⟨rfl, rfl⟩ he hname
  rw [hdefault] at hinherited
  cases hinherited.1

end Variables

end CallContract
