import CallContract.Source.Checked.Access
import CallContract.Source.Parameters

/-!
# Reading parameters, with checks

The readers of parameter lists as they go over the tokens of a text by number. Behind the last
token stands the end of the text (`slots`), and a reader says at which slot it stopped. What
makes a parameter unreadable does not matter, so those refusals say nothing; but to make one is
to look at the slot where it happens (`fail`).
-/

namespace CallContract.Source.Checked

/-! ## Slots -/

/-- The tokens of a text and its end. -/
def slots (tokens : List Token) : List (Option Token) := tokens.map some ++ [none]

/-- Whether a slot is a mark. -/
def isMark (m : Mark) : Option Token → Bool
  | some t => t.lexeme == .mark m
  | none => false

/-- Whether a slot is a word. -/
def isWord (w : String) : Option Token → Bool
  | some t => t.lexeme == .word w
  | none => false

/-- The word that a slot is. -/
def word? : Option Token → Option String
  | some t =>
    match t.lexeme with
    | .word name => some name
    | _ => none
  | none => none

section Tokens

variable (tokens : List Token)

/-- The slot at a number. -/
def current (pos : Nat) : Option (Option Token) := (slots tokens)[pos]?

/-- The slot that comes so many slots later, or the last one. -/
def peek (pos offset : Nat) : Option (Option Token) := do
  let last ← subtract? (slots tokens).length 1
  (slots tokens)[min (pos + offset) last]?

/-- Refuses what stands at a slot. -/
def fail {α : Type} (pos : Nat) : Checked Unit α := do
  let _ ← current tokens pos
  refuse ()

/-- Goes over a slot that is a mark. -/
def expect (m : Mark) (pos : Nat) : Checked Unit Nat := do
  if isMark m (← current tokens pos) then pure (pos + 1) else fail tokens pos

/-- The tokens between two slots. -/
def between (first stop : Nat) : Option (List Token) :=
  if first ≤ stop ∧ stop ≤ tokens.length then some ((tokens.take stop).drop first) else none

/-- The token in front of a slot. -/
def before (pos : Nat) : Option Token := do
  tokens[← subtract? pos 1]?

/-- The depth behind a lexeme. -/
def depthAfter (depth : Nat) (l : Lexeme) : Option Nat :=
  if l.opens then some (depth + 1)
  else if l.closes then subtract? depth 1
  else some depth

/-- Where the default value stops that goes on at a slot, inside `depth` brackets. -/
def defaultEnd (depth pos : Nat) : Checked Unit Nat := do
  match ← current tokens pos with
  | none => fail tokens pos
  | some t =>
    if depth = 0 ∧ (t.lexeme.closes ∨ t.lexeme = .mark .comma) then pure pos
    else
      let depth ← depthAfter depth t.lexeme
      let ⟨next, _⟩ ← further? tokens.length pos (pos + 1)
      defaultEnd depth next
termination_by tokens.length - pos

/-- Where the parameter stops that goes on at a slot, inside `depth` brackets. -/
def parameterEnd (depth pos : Nat) : Checked Unit Nat := do
  match ← current tokens pos with
  | none => fail tokens pos
  | some t =>
    if depth = 0 ∧ (t.lexeme = .mark .comma ∨ t.lexeme = .mark .parenClose) then pure pos
    else if depth = 0 ∧ t.lexeme.closes then fail tokens pos
    else
      let depth ← depthAfter depth t.lexeme
      let ⟨next, _⟩ ← further? tokens.length pos (pos + 1)
      parameterEnd depth next
termination_by tokens.length - pos

end Tokens

/-! ## Default values -/

/-- The text of tokens, from the start of the first to the stop of the last. -/
def spelling (text : List Char) : List Token → Option String
  | [] => some ""
  | first :: ts => do
    let last ← (first :: ts)[← subtract? (first :: ts).length 1]?
    (stretch? text first.start last.stop).map String.ofList

/-- The radix that the first two characters of a literal announce. -/
def radix? (s : List Char) : Option Nat :=
  if Text.startsWith ['0', 'x'] s then some 16
  else if Text.startsWith ['0', 'o'] s then some 8
  else if Text.startsWith ['0', 'b'] s then some 2
  else none

/-- The double that a literal spells. -/
def literalDouble (literal : List Char) : Option (Option Binary64) :=
  let s := literal.filter (· ≠ '_')
  let s := ((Text.beforeEnd? ['n'] s).getD s).map Char.toLower
  match radix? s with
  | some radix => (rest? s 2).map fun ds =>
    (Text.signed? radix ds).bind fun i => Binary64.ofRatio? (i < 0) i.natAbs 1
  | none => some (decimalDouble? s)

/-- The number that a literal, behind a minus sign or not, stands for. -/
def number (literal : String) (negative : Bool) : Option (Option Json.Value) :=
  (literalDouble literal.toList).map fun x =>
    x.map fun x => .number (numberOfDouble (if negative then x.neg else x))

/-- The literal that a single token, or a minus sign and a number, stands for. -/
def literal : List Token → Option (Option Json.Value)
  | [t] =>
    match t.lexeme with
    | .number digits => number digits false
    | _ => some (literal? [t])
  | [sign, t] =>
    match sign.lexeme, t.lexeme with
    | .mark .minus, .number digits => number digits true
    | _, _ => some none
  | _ => some none

/-- What a default value made of these tokens is. -/
def classify (text : List Char) (ts : List Token) : Option DefaultExpr := do
  match ← literal ts with
  | some value => some (.literal value)
  | none =>
    let other := (spelling text ts).map DefaultExpr.other
    match ts with
    | [] => other
    | t :: r =>
      match t.lexeme with
      | .word name =>
        match r with
        | [] => some (.name name)
        | op :: l =>
          if op.lexeme = .mark .nullish then
            match ← literal l with
            | some value => some (.coalesce name value)
            | none => other
          else other
      | _ => other

section Readers

variable (text : List Char) (tokens : List Token)

/-- Reads a default value. -/
def defaultValue (pos : Nat) : Checked Unit (DefaultExpr × Nat) := do
  let stop ← defaultEnd tokens 0 pos
  let ts ← between tokens pos stop
  if ts.isEmpty then fail tokens stop
  else
    let d ← classify text ts
    pure (d, stop)

/-- Reads a default value, if an equals sign is there, and puts it on a pattern. -/
def applyDefault (p : Pattern) (pos : Nat) : Checked Unit (Pattern × Nat) := do
  if isMark .assign (← current tokens pos) then
    let (d, stop) ← defaultValue text tokens (pos + 1)
    pure (.withDefault p d, stop)
  else pure (p, pos)

/-! ## Patterns -/

/-- Reads the key that stands at a slot. -/
def key (pos : Nat) : Checked Unit PropertyKey := do
  match ← current tokens pos with
  | none => fail tokens pos
  | some t =>
    match t.lexeme with
    | .word name => pure (.ident name)
    | .number digits => pure (.number digits)
    | .string value =>
      let s ← stretch? text t.start t.stop
      pure (.quoted value (String.ofList s))
    | _ => fail tokens pos

mutual

/-- Reads a name, an object pattern or an array pattern. -/
def target (pos : Nat) : Checked Unit (Pattern × Nat) := do
  match ← current tokens pos with
  | none => fail tokens pos
  | some t =>
    match t.lexeme with
    | .word name => pure (.ident name, pos + 1)
    | .mark .braceOpen =>
      let ⟨next, _⟩ ← further? tokens.length pos (pos + 1)
      let (ps, stop) ← properties next
      pure (.object ps, stop)
    | .mark .bracketOpen =>
      let ⟨next, _⟩ ← further? tokens.length pos (pos + 1)
      let (es, stop) ← elements next
      pure (.array es, stop)
    | _ => fail tokens pos
termination_by (tokens.length - pos, 0)

/-- Reads a pattern : three points and a target, or a target and a default value. -/
def pattern (pos : Nat) : Checked Unit (Pattern × Nat) := do
  if isMark .ellipsis (← current tokens pos) then
    let ⟨next, _⟩ ← further? tokens.length pos (pos + 1)
    let (p, stop) ← target next
    pure (.rest p, stop)
  else
    let (p, stop) ← target pos
    applyDefault text tokens p stop
termination_by (tokens.length - pos, 1)

/-- Reads properties and the closing brace. -/
def properties (pos : Nat) : Checked Unit (List PropertyPattern × Nat) := do
  if isMark .braceClose (← current tokens pos) then pure ([], pos + 1)
  else
    let (p, next) ← property pos
    if isMark .comma (← current tokens next) then
      let ⟨later, _⟩ ← further? tokens.length pos (next + 1)
      let (ps, stop) ← properties later
      pure (p :: ps, stop)
    else
      let stop ← expect tokens .braceClose next
      pure ([p], stop)
termination_by (tokens.length - pos, 3)

/-- Reads a property. -/
def property (pos : Nat) : Checked Unit (PropertyPattern × Nat) := do
  if isMark .ellipsis (← current tokens pos) then
    let ⟨next, _⟩ ← further? tokens.length pos (pos + 1)
    let (p, stop) ← target next
    pure (.rest p, stop)
  else
    let k ← key text tokens pos
    if isMark .colon (← current tokens (pos + 1)) then
      let ⟨next, _⟩ ← further? tokens.length pos (pos + 2)
      let (p, stop) ← pattern next
      pure (.property k p, stop)
    else
      match k with
      | .ident name =>
        let (p, stop) ← applyDefault text tokens (.ident name) (pos + 1)
        pure (.property k p, stop)
      | _ => fail tokens (pos + 1)
termination_by (tokens.length - pos, 2)

/-- Reads elements, which may be missing, and the closing bracket. -/
def elements (pos : Nat) : Checked Unit (List (Option Pattern) × Nat) := do
  if isMark .bracketClose (← current tokens pos) then pure ([], pos + 1)
  else if isMark .comma (← current tokens pos) then
    let ⟨next, _⟩ ← further? tokens.length pos (pos + 1)
    let (es, stop) ← elements next
    pure (none :: es, stop)
  else
    let (p, next) ← pattern pos
    if isMark .comma (← current tokens next) then
      let ⟨later, _⟩ ← further? tokens.length pos (next + 1)
      let (es, stop) ← elements later
      pure (some p :: es, stop)
    else
      let stop ← expect tokens .bracketClose next
      pure ([some p], stop)
termination_by (tokens.length - pos, 3)

end

/-! ## Parameter lists -/

/-- Reads a parameter, or goes back and keeps the text of one that is no readable pattern. -/
def parameter (pos : Nat) : Checked Unit (Pattern × Nat) := do
  match ← attempt (pattern text tokens pos) with
  | .ok r => pure r
  | .error () =>
    let stop ← parameterEnd tokens 0 pos
    let ts ← between tokens pos stop
    let s ← spelling text ts
    pure (.unsupported s, stop)

/-- Reads parameters and the closing parenthesis. -/
def parameters (pos : Nat) : Checked Unit (List Pattern × Nat) := do
  if isMark .parenClose (← current tokens pos) then pure ([], pos + 1)
  else
    let (p, next) ← parameter text tokens pos
    if isMark .comma (← current tokens next) then
      let ⟨later, _⟩ ← further? tokens.length pos (next + 1)
      let (ps, stop) ← parameters later
      pure (p :: ps, stop)
    else
      let stop ← expect tokens .parenClose next
      pure ([p], stop)
termination_by tokens.length - pos

/-- Reads a parenthesised parameter list. -/
def parameterList (pos : Nat) : Checked Unit (List Pattern × Nat) := do
  let pos ← expect tokens .parenOpen pos
  parameters text tokens pos

end Readers

end CallContract.Source.Checked
