import CallContract.Registry
import CallContract.Warning

/-!
# Filling in named types

`Registry.expand` fills in the properties of an object type: a property whose type is a
registered name gets the base, the properties and the bounds of that type, filled in
themselves. A property that refers to an object type within which it stands keeps its type, and
the chain of names that leads back is reported. The names on the way are distinct, which is why
this ends: fewer names are left off the way at each level.
-/

namespace CallContract

/-- A property with the type that its type names filled in. -/
def PropDef.wrapped (p : PropDef) (name : String) (d : TypeDef) : PropDef :=
  { p with
    type := some d.base
    description := p.description.orElse fun _ => d.description
    wrapType := some name
    props := d.props
    bounds := d.bounds }

namespace Registry

/-- How many registered names are off the way. -/
def remaining (r : Registry) (way : List String) : Nat := r.names.countP fun n => decide (n ∉ way)

/-- Going on to a registered name leaves fewer names. -/
theorem remaining_append_lt {r : Registry} {way : List String} {name : String}
    (hr : name ∈ r.names) (hw : name ∉ way) : r.remaining (way ++ [name]) < r.remaining way := by
  unfold remaining
  generalize r.names = ns at hr
  have mono : ∀ ms : List String, ms.countP (fun n => decide (n ∉ way ++ [name])) ≤
      ms.countP fun n => decide (n ∉ way) := fun ms =>
    List.countP_mono_left fun n _ => by simp +contextual
  induction ns with
  | nil => cases hr
  | cons n ns ih =>
    rw [List.countP_cons, List.countP_cons]
    by_cases hn : n = name
    · have := mono ns
      simp only [hn, hw, List.mem_append, List.mem_singleton, or_true, not_true_eq_false,
        not_false_eq_true, decide_true, decide_false, if_true, Bool.false_eq_true, if_false]
        at this ⊢
      omega
    · have := ih ((List.mem_cons.mp hr).resolve_left (Ne.symm hn))
      simp only [List.mem_append, List.mem_singleton, hn, or_false] at this ⊢
      omega

/-- The definition of a name with its properties filled in, and the circles that were met. The
names on the way are those of the object types within which the name came up. -/
def expandFrom (r : Registry) (way : List String) (name : String) (h : name ∉ way) :
    Option TypeDef × List Warning :=
  match hf : r.find? name with
  | none => (none, [])
  | some d =>
    have := remaining_append_lt (mem_names_of_find? hf) h
    if d.isObject then
      let filled := d.props.map fun e =>
        match e.2.type with
        | none => (e, [])
        | some t =>
          if ht : t ∈ way ++ [name] then (e, [.circularAlias (way ++ [name] ++ [t])])
          else
            match r.expandFrom (way ++ [name]) t ht with
            | (none, ws) => (e, ws)
            | (some n, ws) => ((e.1, e.2.wrapped t n), ws)
      (some { d with props := filled.map Prod.fst }, filled.flatMap Prod.snd)
    else (some d, [])
termination_by r.remaining way

/-- The definition of a name with its properties filled in, and the circles that were met. -/
def expand (r : Registry) (name : String) : Option TypeDef × List Warning :=
  r.expandFrom [] name (List.not_mem_nil)

/-- The definition of a name with its properties filled in. -/
def lookup? (r : Registry) (name : String) : Option TypeDef := (r.expand name).1

end Registry

end CallContract
