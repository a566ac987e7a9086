import CallContract.Proofs.Source.TopLevel

/-!
# What patterns are made of

`Pattern.All K V` says of a pattern that all keys on the way to a name have the property `K` and
all default values of names have the property `V`. The parameters of a function are read off
tokens (`Source.ReadOff.of_readModule`), and so are their keys and values, so all patterns of a
source text have each property that its keys and its literals have
(`Source.all_of_readModule`).
-/

namespace CallContract

/-- The value of a default, if it is known. -/
def DefaultExpr.value? : DefaultExpr → Option Json.Value
  | literal v => some v
  | name _ => none
  | coalesce _ v => some v
  | other _ => none

namespace Pattern

mutual

/-- All keys of a pattern that can be followed have a property, and so do all default values. -/
def All (K : PropertyKey → Prop) (V : Json.Value → Prop) : Pattern → Prop
  | ident _ => True
  | rest target => target.All K V
  | object properties => AllProperties K V properties
  | array _ => True
  | withDefault target value => (∀ v ∈ value.value?, V v) ∧ target.All K V
  | unsupported _ => True

/-- All keys and default values of properties have a property. -/
def AllProperties (K : PropertyKey → Prop) (V : Json.Value → Prop) : List PropertyPattern → Prop
  | [] => True
  | .property key value :: ps => (K key ∧ value.All K V) ∧ AllProperties K V ps
  | .rest _ :: ps => AllProperties K V ps

end

variable {K : PropertyKey → Prop} {V : Json.Value → Prop}

theorem all_ident (name : String) : (ident name).All K V := trivial

theorem all_of_mem_properties {k : PropertyKey} {p : Pattern} :
    ∀ {ps : List PropertyPattern}, AllProperties K V ps → .property k p ∈ ps → K k ∧ p.All K V
  | [], _, h => (List.not_mem_nil h).elim
  | .property _ _ :: _, hall, h => by
    rcases List.mem_cons.mp h with heq | h
    · obtain ⟨rfl, rfl⟩ := PropertyPattern.property.inj heq
      exact hall.1
    · exact all_of_mem_properties hall.2 h
  | .rest _ :: ps, hall, h => by
    have hps : AllProperties K V ps := hall
    rcases List.mem_cons.mp h with heq | h
    · simp at heq
    · exact all_of_mem_properties hps h

end Pattern

namespace Source

theorem eq_ok_of_bind_eq {ε α β : Type} {f : α → Except ε β} {x : Except ε α} {b : β}
    (h : x >>= f = .ok b) : ∃ a, x = .ok a ∧ f a = .ok b := by
  cases x with
  | error e => cases h
  | ok a => exact ⟨a, rfl, h⟩

variable {text : List Char} {K : PropertyKey → Prop} {V : Json.Value → Prop}

/-- A default value is a literal of tokens. -/
theorem value_of_classifyDefault {ts : List Token} {d : DefaultExpr}
    (hV : ∀ ts v, literal? ts = some v → V v) (h : classifyDefault text ts = .ok d) :
    ∀ v ∈ d.value?, V v := by
  intro v hv
  unfold classifyDefault at h
  split at h
  · rename_i w hw
    obtain rfl := Except.ok.inj h
    exact hV ts v (Option.some.inj hv ▸ hw)
  have hother : ∀ x : Except Setback String, x.map DefaultExpr.other = .ok d → V v := by
    intro x hx
    obtain ⟨s, _, rfl⟩ := eq_ok_of_map_eq hx
    cases hv
  simp only at h
  split at h
  · exact hother _ h
  split at h
  · split at h
    · obtain rfl := Except.ok.inj h
      cases hv
    split at h
    · rename_i hw
      obtain rfl := Except.ok.inj h
      exact hV _ v (Option.some.inj hv ▸ hw)
    · exact hother _ h
  · exact hother _ h

theorem all_withDefault {p q : Pattern} {n m : Nat} {ts : List Token}
    (hV : ∀ ts v, literal? ts = some v → V v) (hp : p.All K V)
    (h : withDefault text p n ts = .ok (q, m)) : q.All K V := by
  unfold withDefault at h
  split at h
  · split at h
    · obtain ⟨⟨d, k⟩, hd, heq⟩ := eq_ok_of_map_eq h
      obtain ⟨rfl, _⟩ := Prod.mk.inj heq
      refine ⟨?_, hp⟩
      unfold readDefault at hd
      split at hd
      · simp at hd
      · simp at hd
      · obtain ⟨e, he, heq⟩ := eq_ok_of_map_eq hd
        obtain ⟨rfl, _⟩ := Prod.mk.inj heq
        exact value_of_classifyDefault hV he
    · obtain ⟨rfl, _⟩ := Prod.mk.inj (Except.ok.inj h)
      exact hp
  · obtain ⟨rfl, _⟩ := Prod.mk.inj (Except.ok.inj h)
    exact hp

/-- The keys that tokens make have a property. -/
def KeysOf (text : List Char) (K : PropertyKey → Prop) (ts : List Token) : Prop :=
  ∀ t ∈ ts, ∀ k, propertyKey text t = .ok k → K k

theorem KeysOf.of_subset {ts us : List Token} (h : KeysOf text K ts) (hs : us ⊆ ts) :
    KeysOf text K us := fun t ht => h t (hs ht)

mutual

theorem all_readTarget (hV : ∀ ts v, literal? ts = some v → V v) :
    ∀ (ts : List Token) {p : Pattern} {n : Nat}, KeysOf text K ts →
      readTarget text ts = .ok (p, n) → p.All K V
  | [], _, _, _, h => by
    rw [readTarget] at h
    cases h
  | t :: r, p, n, hK, h => by
    rw [readTarget] at h
    split at h
    · obtain ⟨rfl, _⟩ := Prod.mk.inj (Except.ok.inj h)
      trivial
    · split at h
      · simp at h
      · rename_i hps
        obtain ⟨rfl, _⟩ := Prod.mk.inj (Except.ok.inj h)
        exact all_readProperties hV r (hK.of_subset (List.subset_cons_self t r)) hps
    · split at h
      · simp at h
      · obtain ⟨rfl, _⟩ := Prod.mk.inj (Except.ok.inj h)
        trivial
    · simp at h
termination_by ts => 3 * ts.length

theorem all_readPattern (hV : ∀ ts v, literal? ts = some v → V v) :
    ∀ (ts : List Token) {p : Pattern} {n : Nat}, KeysOf text K ts →
      readPattern text ts = .ok (p, n) → p.All K V
  | [], _, _, _, h => by
    rw [readPattern] at h
    cases h
  | t :: r, p, n, hK, h => by
    rw [readPattern] at h
    split at h
    · split at h
      · simp at h
      · rename_i q m hq
        obtain ⟨rfl, _⟩ := Prod.mk.inj (Except.ok.inj h)
        have hall : q.All K V := all_readTarget hV r (hK.of_subset (List.subset_cons_self t r)) hq
        exact hall
    · split at h
      · simp at h
      · rename_i hq
        exact all_withDefault hV (all_readTarget hV (t :: r) hK hq) h
termination_by ts => 3 * ts.length + 1

theorem all_readProperties (hV : ∀ ts v, literal? ts = some v → V v) :
    ∀ (ts : List Token) {ps : List PropertyPattern} {n : Nat}, KeysOf text K ts →
      readProperties text ts = .ok (ps, n) → Pattern.AllProperties K V ps
  | [], _, _, _, h => by
    rw [readProperties] at h
    cases h
  | t :: r, ps, n, hK, h => by
    rw [readProperties] at h
    split at h
    · obtain ⟨rfl, _⟩ := Prod.mk.inj (Except.ok.inj h)
      trivial
    · split at h
      · simp at h
      · rename_i hp
        have hfirst := all_readProperty hV t r hK hp
        split at h
        · simp at h
        · rename_i u s hs
          have hlt : s.length < r.length := by
            have hlen := congrArg List.length hs
            rw [List.length_drop, List.length_cons] at hlen
            omega
          have hsub : s ⊆ t :: r := fun x hx => List.mem_cons_of_mem t
            (List.mem_of_mem_drop (hs ▸ List.mem_cons_of_mem u hx))
          split at h
          · split at h
            · simp at h
            · rename_i hqs
              obtain ⟨rfl, _⟩ := Prod.mk.inj (Except.ok.inj h)
              exact hfirst _ (all_readProperties hV s (hK.of_subset hsub) hqs)
          split at h
          · obtain ⟨rfl, _⟩ := Prod.mk.inj (Except.ok.inj h)
            exact hfirst [] trivial
          · simp at h
termination_by ts => 3 * ts.length + 2
decreasing_by all_goals (simp only [List.length_cons]; omega)

theorem all_readProperty (hV : ∀ ts v, literal? ts = some v → V v) (t : Token) :
    ∀ (ts : List Token) {p : PropertyPattern} {n : Nat}, KeysOf text K (t :: ts) →
      readProperty text t ts = .ok (p, n) →
      ∀ ps, Pattern.AllProperties K V ps → Pattern.AllProperties K V (p :: ps)
  | ts, p, n, hK, h, ps, hps => by
    rw [readProperty.eq_def] at h
    split at h
    · split at h
      · simp at h
      · obtain ⟨rfl, _⟩ := Prod.mk.inj (Except.ok.inj h)
        exact hps
    split at h
    · simp at h
    · rename_i key hkey
      have hk : K key := hK t List.mem_cons_self key hkey
      split at h
      · split at h
        · obtain ⟨rfl, _⟩ := Prod.mk.inj (Except.ok.inj h)
          exact ⟨⟨hk, trivial⟩, hps⟩
        · simp at h
      · rename_i u r
        split at h
        · split at h
          · simp at h
          · rename_i hq
            obtain ⟨rfl, _⟩ := Prod.mk.inj (Except.ok.inj h)
            have hsub : r ⊆ t :: u :: r := fun x hx =>
              List.mem_cons_of_mem t (List.mem_cons_of_mem u hx)
            exact ⟨⟨hk, all_readPattern hV r (hK.of_subset hsub) hq⟩, hps⟩
        · split at h
          · split at h
            · simp at h
            · rename_i hq
              obtain ⟨rfl, _⟩ := Prod.mk.inj (Except.ok.inj h)
              exact ⟨⟨hk, all_withDefault hV (Pattern.all_ident _) hq⟩, hps⟩
          · simp at h
termination_by ts => 3 * ts.length + 2

end

theorem all_readParameter (hV : ∀ ts v, literal? ts = some v → V v) {ts : List Token} {p : Pattern}
    {n : Nat} (hK : KeysOf text K ts) (h : readParameter text ts = .ok (p, n)) : p.All K V := by
  unfold readParameter at h
  split at h
  · rename_i hp
    obtain rfl := Except.ok.inj h
    exact all_readPattern hV ts hK hp
  · simp at h
  · split at h
    · simp at h
    · obtain ⟨s, _, heq⟩ := eq_ok_of_map_eq h
      obtain ⟨rfl, _⟩ := Prod.mk.inj heq
      trivial

/-- All parameters of a list have the properties. -/
def AllParams (K : PropertyKey → Prop) (V : Json.Value → Prop) (ps : List Pattern) : Prop :=
  ∀ p ∈ ps, p.All K V

theorem all_readParameters (hV : ∀ ts v, literal? ts = some v → V v) :
    ∀ (ts : List Token) {ps : List Pattern} {n : Nat}, KeysOf text K ts →
      readParameters text ts = .ok (ps, n) → AllParams K V ps
  | [], _, _, _, h => by
    rw [readParameters] at h
    cases h
  | t :: r, ps, n, hK, h => by
    rw [readParameters] at h
    split at h
    · obtain ⟨rfl, _⟩ := Prod.mk.inj (Except.ok.inj h)
      exact fun _ hp => (List.not_mem_nil hp).elim
    · split at h
      · simp at h
      · rename_i hp
        have hfirst := all_readParameter hV hK hp
        split at h
        · simp at h
        · rename_i u s hs
          have hlt : s.length ≤ r.length := by
            have hlen := congrArg List.length hs
            rw [List.length_drop, List.length_cons, List.length_cons] at hlen
            omega
          have hsub : s ⊆ t :: r := fun x hx =>
            List.mem_of_mem_drop (hs ▸ List.mem_cons_of_mem u hx)
          split at h
          · split at h
            · simp at h
            · rename_i hqs
              obtain ⟨rfl, _⟩ := Prod.mk.inj (Except.ok.inj h)
              exact List.forall_mem_cons.mpr
                ⟨hfirst, all_readParameters hV s (hK.of_subset hsub) hqs⟩
          split at h
          · obtain ⟨rfl, _⟩ := Prod.mk.inj (Except.ok.inj h)
            exact List.forall_mem_cons.mpr ⟨hfirst, fun _ hp => (List.not_mem_nil hp).elim⟩
          · simp at h
termination_by ts => ts.length
decreasing_by all_goals (simp only [List.length_cons]; omega)

theorem all_readParameterList (hV : ∀ ts v, literal? ts = some v → V v) {ts : List Token}
    {ps : List Pattern} {n : Nat} (hK : KeysOf text K ts)
    (h : readParameterList text ts = .ok (ps, n)) : AllParams K V ps := by
  unfold readParameterList at h
  split at h
  · simp at h
  · split at h
    · obtain ⟨⟨qs, m⟩, hqs, heq⟩ := eq_ok_of_map_eq h
      obtain ⟨rfl, _⟩ := Prod.mk.inj heq
      exact all_readParameters hV _ (hK.of_subset (List.subset_cons_self _ _)) hqs
    · simp at h

/-! ## Parameters of functions -/

/-- The parameters of a function are a single name, or a list that is read off some of the
tokens. -/
def ReadOff (text : List Char) (ts : List Token) (ps : List Pattern) : Prop :=
  (∃ x, ps = [.ident x]) ∨ ∃ k n, readParameterList text (ts.drop k) = .ok (ps, n)

namespace ReadOff

variable {ts : List Token} {ps : List Pattern} {size n : Nat}

theorem of_drop {k : Nat} (h : ReadOff text (ts.drop k) ps) : ReadOff text ts ps := by
  refine h.imp_right fun ⟨m, n, hps⟩ => ⟨k + m, n, ?_⟩
  rwa [← List.drop_drop]

theorem of_readParameterList {k : Nat} (h : readParameterList text (ts.drop k) = .ok (ps, n)) :
    ReadOff text ts ps :=
  Or.inr ⟨k, n, h⟩

theorem of_readDeclared (h : readDeclared text ts = .ok (ps, n)) : ReadOff text ts ps := by
  obtain ⟨⟨qs, m⟩, hqs, h⟩ := eq_ok_of_bind_eq h
  obtain ⟨k, _, h⟩ := eq_ok_of_bind_eq h
  obtain ⟨rfl, _⟩ := Prod.mk.inj (Except.ok.inj h)
  exact of_readParameterList (k := 0) hqs

theorem of_readFunctionValue (h : readFunctionValue text size ts = .ok (ps, n)) :
    ReadOff text ts ps := by
  unfold readFunctionValue at h
  simp only [List.drop_drop] at h
  split at h
  · obtain ⟨⟨qs, m⟩, hqs, h⟩ := eq_ok_of_bind_eq h
    obtain ⟨k, _, h⟩ := eq_ok_of_bind_eq h
    obtain ⟨rfl, _⟩ := Prod.mk.inj (Except.ok.inj h)
    exact of_readParameterList hqs
  · split at h
    · obtain ⟨m, _, h⟩ := eq_ok_of_bind_eq h
      obtain ⟨rfl, _⟩ := Prod.mk.inj (Except.ok.inj h)
      exact Or.inl ⟨_, rfl⟩
    · obtain ⟨⟨qs, m⟩, hqs, h⟩ := eq_ok_of_bind_eq h
      obtain ⟨k, _, h⟩ := eq_ok_of_bind_eq h
      obtain ⟨rfl, _⟩ := Prod.mk.inj (Except.ok.inj h)
      exact of_readParameterList hqs

theorem of_readFunction {name : String} (h : readFunction text size ts = .ok ((name, ps), n)) :
    ReadOff text ts ps := by
  unfold readFunction at h
  simp only [List.drop_drop] at h
  split at h
  · split at h
    · obtain ⟨⟨qs, m⟩, hqs, h⟩ := eq_ok_of_bind_eq h
      obtain ⟨heq, _⟩ := Prod.mk.inj (Except.ok.inj h)
      obtain ⟨_, rfl⟩ := Prod.mk.inj heq
      exact of_drop (of_readDeclared hqs)
    · split at h
      · obtain ⟨⟨qs, m⟩, hqs, h⟩ := eq_ok_of_bind_eq h
        obtain ⟨heq, _⟩ := Prod.mk.inj (Except.ok.inj h)
        obtain ⟨_, rfl⟩ := Prod.mk.inj heq
        exact of_drop (of_readDeclared hqs)
      · simp at h
  · split at h
    · split at h
      · obtain ⟨⟨qs, m⟩, hqs, h⟩ := eq_ok_of_bind_eq h
        obtain ⟨heq, _⟩ := Prod.mk.inj (Except.ok.inj h)
        obtain ⟨_, rfl⟩ := Prod.mk.inj heq
        exact of_drop (of_readFunctionValue hqs)
      · simp at h
    · simp at h

theorem of_readStatement {name : String}
    (h : readStatement text size ts = .ok (some (name, ps), n)) : ReadOff text ts ps := by
  unfold readStatement at h
  split at h
  · rename_i hf
    obtain ⟨heq, _⟩ := Prod.mk.inj (Except.ok.inj h)
    obtain rfl := Option.some.inj heq
    exact of_readFunction hf
  · simp at h
  · split at h
    · simp at h
    · obtain ⟨heq, _⟩ := Prod.mk.inj (Except.ok.inj h)
      cases heq

theorem of_readStatements {previous : Option Nat} {ds : List Declaration}
    (h : readStatements text size previous ts = .ok ds) : ∀ d ∈ ds, ReadOff text ts d.params := by
  fun_induction readStatements text size previous ts generalizing ds with
  | case1 =>
    obtain rfl := Except.ok.inj h
    exact fun _ hd => (List.not_mem_nil hd).elim
  | case2 _ t r _ ih => exact fun d hd => of_drop (k := 1) (ih h d hd)
  | case3 => simp at h
  | case4 => simp at h
  | case5 _ t r _ n _ ds' hds =>
    rename_i ih
    obtain rfl := Except.ok.inj h
    exact fun d hd => of_drop (k := n + 1) (ih hds d hd)
  | case6 _ t r _ n _ ds' hds name params hf =>
    rename_i ih
    obtain rfl := Except.ok.inj h
    refine List.forall_mem_cons.mpr ⟨of_readStatement hf, fun d hd => ?_⟩
    exact of_drop (k := n + 1) (ih hds d hd)

theorem of_readModule {source : List Char} {file : File} {l : Lexed}
    (h : readModule source = .ok file) (hl : tokenize source = .ok l) :
    ∀ d ∈ file.declarations, ReadOff source l.tokens d.params := by
  unfold readModule at h
  rw [hl] at h
  simp only at h
  split at h
  · simp at h
  · rename_i ds hds
    obtain rfl := Except.ok.inj h
    exact of_readStatements hds

end ReadOff

/-- Every pattern of a source text is made of keys that its tokens make and of literals. -/
theorem all_of_readModule {source : List Char} {file : File} {l : Lexed}
    (h : readModule source = .ok file) (hl : tokenize source = .ok l)
    (hK : KeysOf source K l.tokens) (hV : ∀ ts v, literal? ts = some v → V v) :
    ∀ d ∈ file.declarations, AllParams K V d.params := by
  intro d hd
  rcases ReadOff.of_readModule h hl d hd with ⟨x, hx⟩ | ⟨k, n, hps⟩
  · rw [hx]
    exact List.forall_mem_singleton.mpr (Pattern.all_ident x)
  · exact all_readParameterList hV (hK.of_subset (List.drop_subset k l.tokens)) hps

end Source

end CallContract
