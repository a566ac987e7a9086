import CallContract.Proofs.Source.Printing.Layout

/-!
# Patterns as lexemes

Patterns that keep their form are written as lexemes (`Style.lexemes`). Supported are names,
object patterns and array patterns (`Pattern.IsTarget`), each with three points in front, with a
default value behind, or as it is (`Pattern.Supported`). A property whose value has the name of
its key can be written short, a missing element is written as its comma, and the style says
whether a comma stands behind the last item of a list (`Style.separator`). Every lexeme of a
supported pattern is read back from its text (`writable_lexemes`).
-/

namespace CallContract

/-! ## The grammar -/

/-- The literals that a default value can be and that are no numbers. -/
inductive Json.Value.IsLiteral : Json.Value → Prop
  | null : IsLiteral .null
  | bool (b : Bool) : IsLiteral (.bool b)
  | string (s : String) : IsLiteral (.string s)

/-- A default value that keeps its form: a literal, a name that is none, or a name with a literal
to fall back on. -/
inductive DefaultExpr.Supported : DefaultExpr → Prop
  | literal {v : Json.Value} : v.IsLiteral → Supported (.literal v)
  | name {name : String} : Source.IsWord name → name ∉ ["true", "false", "null"] →
      Supported (.name name)
  | coalesce {name : String} {v : Json.Value} : Source.IsWord name → v.IsLiteral →
      Supported (.coalesce name v)

/-- A key that keeps its form: a name, an unsigned decimal number, or a text that is spelled as
JSON spells it. -/
inductive PropertyKey.Supported : PropertyKey → Prop
  | ident {name : String} : Source.IsWord name → Supported (.ident name)
  | number {spelling : String} : Source.IsDecimal spelling.toList → Supported (.number spelling)
  | quoted (value : String) : Supported (.quoted value (Json.Value.string value).compact)

namespace Pattern

mutual

/-- A name, an object pattern or an array pattern. -/
inductive IsTarget : Pattern → Prop
  | ident {name : String} : Source.IsWord name → IsTarget (ident name)
  | object {ps : List PropertyPattern} : SupportedProperties ps → IsTarget (object ps)
  | array {es : List (Option Pattern)} : SupportedElements es → IsTarget (array es)

/-- A target, with three points in front of it or a default value behind it, or neither. -/
inductive Supported : Pattern → Prop
  | target {p : Pattern} : IsTarget p → Supported p
  | rest {p : Pattern} : IsTarget p → Supported (rest p)
  | withDefault {p : Pattern} {d : DefaultExpr} : IsTarget p → d.Supported →
      Supported (withDefault p d)

/-- Properties with supported keys and values. -/
inductive SupportedProperties : List PropertyPattern → Prop
  | nil : SupportedProperties []
  | property {k : PropertyKey} {v : Pattern} {ps : List PropertyPattern} : k.Supported →
      Supported v → SupportedProperties ps → SupportedProperties (.property k v :: ps)
  | rest {p : Pattern} {ps : List PropertyPattern} : IsTarget p → SupportedProperties ps →
      SupportedProperties (.rest p :: ps)

/-- Supported elements, of which any may be missing. -/
inductive SupportedElements : List (Option Pattern) → Prop
  | nil : SupportedElements []
  | hole {es : List (Option Pattern)} : SupportedElements es → SupportedElements (none :: es)
  | element {p : Pattern} {es : List (Option Pattern)} : Supported p → SupportedElements es →
      SupportedElements (some p :: es)

end

/-- The name that a pattern binds if it is only a name, with or without a default value. -/
def bareName? : Pattern → Option String
  | ident name => some name
  | withDefault (ident name) _ => some name
  | _ => none

/-- Whether a pattern has three points in front. -/
def isRest : Pattern → Bool
  | rest _ => true
  | _ => false

end Pattern

/-- Whether a property has three points in front. -/
def PropertyPattern.isRest : PropertyPattern → Bool
  | property _ _ => false
  | rest _ => true

namespace Source

/-! ## The printer -/

/-- The lexeme of a literal. -/
def literalLexeme : Json.Value → Lexeme
  | .string s => .string s
  | v => .word v.compact

/-- The lexemes of a default value. -/
def defaultLexemes : DefaultExpr → List Lexeme
  | .literal v => [literalLexeme v]
  | .name name => [.word name]
  | .coalesce name v => [.word name, .mark .nullish, literalLexeme v]
  | .other _ => []

/-- The lexeme of a key. -/
def keyLexeme : PropertyKey → Lexeme
  | .ident name => .word name
  | .number spelling => .number spelling
  | .quoted value _ => .string value

namespace Style

variable (y : Style)

/-- What stands behind an item of a list: a comma, unless the item is the last one and either the
style puts none there or the item has three points in front. -/
def separator (isRest isLast : Bool) : List Lexeme :=
  if isLast && (isRest || !y.trailingComma) then [] else [.mark .comma]

mutual

/-- The lexemes of a pattern. -/
def lexemes : Pattern → List Lexeme
  | .ident name => [.word name]
  | .rest p => .mark .ellipsis :: lexemes p
  | .object ps => .mark .braceOpen :: propertiesLexemes ps
  | .array es => .mark .bracketOpen :: elementsLexemes es
  | .withDefault p d => lexemes p ++ .mark .assign :: defaultLexemes d
  | .unsupported _ => []

/-- The lexemes of a property. A short property is its value. -/
def propertyLexemes : PropertyPattern → List Lexeme
  | .property k v =>
    if y.shorthand && v.bareName?.map .ident == some k then lexemes v
    else keyLexeme k :: .mark .colon :: lexemes v
  | .rest p => .mark .ellipsis :: lexemes p

/-- The lexemes of properties, and the closing brace. -/
def propertiesLexemes : List PropertyPattern → List Lexeme
  | [] => [.mark .braceClose]
  | p :: ps => propertyLexemes p ++ (y.separator p.isRest ps.isEmpty ++ propertiesLexemes ps)

/-- The lexemes of elements, and the closing bracket. A missing element is its comma. -/
def elementsLexemes : List (Option Pattern) → List Lexeme
  | [] => [.mark .bracketClose]
  | none :: es => .mark .comma :: elementsLexemes es
  | some p :: es => lexemes p ++ (y.separator p.isRest es.isEmpty ++ elementsLexemes es)

end

/-- The lexemes of parameters, and the closing parenthesis. -/
def parametersLexemes : List Pattern → List Lexeme
  | [] => [.mark .parenClose]
  | p :: ps => y.lexemes p ++ (y.separator p.isRest ps.isEmpty ++ parametersLexemes ps)

end Style

/-! ## Lexemes of patterns are read back -/

section Writable

variable {y : Style}

theorem isWord_literal : ∀ name ∈ ["true", "false", "null"], IsWord name := by
  intro name hname
  simp only [List.mem_cons, List.not_mem_nil, or_false] at hname
  rcases hname with rfl | rfl | rfl <;> exact isWord_of_chars rfl rfl rfl

theorem writable_literalLexeme {v : Json.Value} (hv : v.IsLiteral) :
    (literalLexeme v).Writable := by
  cases hv with
  | null => exact .word (isWord_literal "null" (by decide))
  | bool b =>
    cases b
    · exact .word (isWord_literal "false" (by decide))
    · exact .word (isWord_literal "true" (by decide))
  | string s => exact .string s

theorem writable_defaultLexemes {d : DefaultExpr} (hd : d.Supported) :
    ∀ l ∈ defaultLexemes d, l.Writable := by
  cases hd with
  | literal hv => simpa [defaultLexemes] using writable_literalLexeme hv
  | name hname _ => simpa [defaultLexemes] using Lexeme.Writable.word hname
  | coalesce hname hv =>
    simpa [defaultLexemes] using
      ⟨Lexeme.Writable.word hname, Lexeme.Writable.mark .nullish, writable_literalLexeme hv⟩

theorem writable_keyLexeme {k : PropertyKey} (hk : k.Supported) : (keyLexeme k).Writable := by
  cases hk with
  | ident hname => exact .word hname
  | number hspelling => exact .number hspelling
  | quoted value => exact .string value

theorem writable_separator (isRest isLast : Bool) :
    ∀ l ∈ y.separator isRest isLast, l.Writable := by
  unfold Style.separator
  split
  · simp
  · simpa using Lexeme.Writable.mark .comma

mutual

theorem writable_of_isTarget : ∀ {p : Pattern}, p.IsTarget → ∀ l ∈ y.lexemes p, l.Writable
  | _, .ident hname => by simpa [Style.lexemes] using Lexeme.Writable.word hname
  | _, .object hps => by
    rw [Style.lexemes, List.forall_mem_cons]
    exact ⟨.mark _, writable_propertiesLexemes hps⟩
  | _, .array hes => by
    rw [Style.lexemes, List.forall_mem_cons]
    exact ⟨.mark _, writable_elementsLexemes hes⟩

theorem writable_lexemes : ∀ {p : Pattern}, p.Supported → ∀ l ∈ y.lexemes p, l.Writable
  | _, .target hp => writable_of_isTarget hp
  | _, .rest hp => by
    rw [Style.lexemes, List.forall_mem_cons]
    exact ⟨.mark _, writable_of_isTarget hp⟩
  | _, .withDefault hp hd => by
    rw [Style.lexemes, List.forall_mem_append, List.forall_mem_cons]
    exact ⟨writable_of_isTarget hp, .mark _, writable_defaultLexemes hd⟩

theorem writable_propertiesLexemes : ∀ {ps : List PropertyPattern},
    Pattern.SupportedProperties ps → ∀ l ∈ y.propertiesLexemes ps, l.Writable
  | _, .nil => by simpa [Style.propertiesLexemes] using Lexeme.Writable.mark .braceClose
  | _, .property hk hv hps => by
    rw [Style.propertiesLexemes, Style.propertyLexemes, List.forall_mem_append,
      List.forall_mem_append]
    refine ⟨?_, writable_separator _ _, writable_propertiesLexemes hps⟩
    split
    · exact writable_lexemes hv
    · rw [List.forall_mem_cons, List.forall_mem_cons]
      exact ⟨writable_keyLexeme hk, .mark _, writable_lexemes hv⟩
  | _, .rest hp hps => by
    rw [Style.propertiesLexemes, Style.propertyLexemes, List.forall_mem_append,
      List.forall_mem_append, List.forall_mem_cons]
    exact ⟨⟨.mark _, writable_of_isTarget hp⟩, writable_separator _ _,
      writable_propertiesLexemes hps⟩

theorem writable_elementsLexemes : ∀ {es : List (Option Pattern)},
    Pattern.SupportedElements es → ∀ l ∈ y.elementsLexemes es, l.Writable
  | _, .nil => by simpa [Style.elementsLexemes] using Lexeme.Writable.mark .bracketClose
  | _, .hole hes => by
    rw [Style.elementsLexemes, List.forall_mem_cons]
    exact ⟨.mark _, writable_elementsLexemes hes⟩
  | _, .element hp hes => by
    rw [Style.elementsLexemes, List.forall_mem_append, List.forall_mem_append]
    exact ⟨writable_lexemes hp, writable_separator _ _, writable_elementsLexemes hes⟩

end

theorem writable_parametersLexemes : ∀ {ps : List Pattern}, (∀ p ∈ ps, p.Supported) →
    ∀ l ∈ y.parametersLexemes ps, l.Writable
  | [], _ => by simpa [Style.parametersLexemes] using Lexeme.Writable.mark .parenClose
  | p :: ps, h => by
    obtain ⟨hp, hps⟩ := List.forall_mem_cons.mp h
    rw [Style.parametersLexemes, List.forall_mem_append, List.forall_mem_append]
    exact ⟨writable_lexemes hp, writable_separator _ _, writable_parametersLexemes hps⟩

end Writable

end Source

end CallContract
