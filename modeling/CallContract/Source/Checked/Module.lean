import CallContract.Source.Checked.Lexer
import CallContract.Source.Checked.Parameters
import CallContract.Source.Module

/-!
# Reading a source text, with checks

`readModule` as it goes over the bytes and the tokens of a text. To take a function back that
could not be read is to go on at the slot where it started.
-/

namespace CallContract.Source.Checked

section Tokens

variable (tokens : List Token)

/-! ## Skipping -/

/-- Where a block stops of which the slot `pos` is left, inside `depth` brackets. -/
def blockEnd (depth pos : Nat) : Checked Unit Nat := do
  match ← current tokens pos with
  | none => fail tokens pos
  | some t =>
    let depth ← depthAfter depth t.lexeme
    if t.lexeme.closes ∧ depth = 0 then pure (pos + 1)
    else
      let ⟨next, _⟩ ← further? tokens.length pos (pos + 1)
      blockEnd depth next
termination_by tokens.length - pos

/-- Goes over a block in braces. -/
def skipBlock (pos : Nat) : Checked Unit Nat := do
  if isMark .braceOpen (← current tokens pos) then blockEnd tokens 0 pos else fail tokens pos

/-- Whether a statement ends in front of a slot. -/
def atBoundary (pos : Nat) : Option Bool := do
  match ← current tokens pos with
  | none => some true
  | some next =>
    if pos = 0 ∨ continuesStatement next.lexeme then some false
    else
      let last ← before tokens pos
      if last.lexeme = .mark .braceClose then some (!next.lexeme.isWordOf afterBraceWords)
      else some (next.afterBreak && endsExpression last.lexeme)

/-- Refuses the text because of what stands at a slot; `size` is where the text ends. -/
def failAt {α : Type} (size pos : Nat) (cause : Cause) : Checked Error α := do
  let slot ← current tokens pos
  refuse ⟨(slot.map Token.start).getD size, cause⟩

/-- Where the statement stops that goes on at a slot, inside `depth` brackets. -/
def statementEnd (size depth pos : Nat) : Checked Error Nat := do
  match ← current tokens pos with
  | none => if depth = 0 then pure pos else failAt tokens size pos .openBracket
  | some t =>
    if depth = 0 ∧ t.lexeme.closes then failAt tokens size pos .strayBracket
    else if depth = 0 ∧ t.lexeme = .mark .semicolon then pure (pos + 1)
    else
      let depth ← depthAfter depth t.lexeme
      let ⟨next, _⟩ ← further? tokens.length pos (pos + 1)
      if depth = 0 then
        if ← atBoundary tokens next then pure next else statementEnd size depth next
      else statementEnd size depth next
termination_by tokens.length - pos

/-- Goes over the rest of a statement, as a step of reading a function. -/
def skipStatement (size pos : Nat) : Checked Unit Nat :=
  ExceptT.adapt (fun _ => ()) (statementEnd tokens size 0 pos)

/-- Goes over what ends a statement. -/
def finishStatement (size pos : Nat) : Checked Unit Nat := do
  if isMark .semicolon (← current tokens pos) then pure (pos + 1)
  else if ← atBoundary tokens pos then pure pos
  else skipStatement tokens size pos

/-- Goes over a function body in braces and what ends its statement. -/
def skipBody (size pos : Nat) : Checked Unit Nat := do
  let stop ← skipBlock tokens pos
  finishStatement tokens size stop

/-- Goes over the arrow and the body of an arrow function. -/
def skipArrow (size pos : Nat) : Checked Unit Nat := do
  if isMark .arrow (← current tokens pos) then
    if isMark .braceOpen (← current tokens (pos + 1)) then skipBody tokens size (pos + 1)
    else skipStatement tokens size (pos + 1)
  else refuse ()

/-! ## Words in front of functions -/

/-- Goes over a slot if a condition holds of it. -/
def skipIf (condition : Option Token → Bool) (pos : Nat) : Option Nat := do
  if condition (← current tokens pos) then some (pos + 1) else some pos

/-- Goes over `export` and `default` : whether both were there, and the slot behind them. -/
def exportWords (pos : Nat) : Option (Bool × Nat) := do
  if isWord "export" (← current tokens pos) then
    if isWord "default" (← current tokens (pos + 1)) then some (true, pos + 2)
    else some (false, pos + 1)
  else some (false, pos)

/-- Goes over `async` in front of `function`. -/
def asyncWord (pos : Nat) : Option Nat := do
  if isWord "async" (← current tokens pos) then
    if isWord "function" (← peek tokens pos 1) then some (pos + 1) else some pos
  else some pos

/-- Whether the slots behind `async` start a function value. -/
def startsAsync (pos : Nat) : Option Bool := do
  if isWord "function" (← peek tokens pos 1) then some true
  else if isMark .parenOpen (← peek tokens pos 1) then some true
  else if (word? (← peek tokens pos 1)).isSome then
    (peek tokens pos 2).map (isMark .arrow)
  else some false

/-- Goes over `async` in front of a function value. -/
def asyncValueWord (pos : Nat) : Option Nat := do
  if isWord "async" (← current tokens pos) then
    if ← startsAsync tokens pos then some (pos + 1) else some pos
  else some pos

end Tokens

/-! ## Functions -/

section Readers

variable (text : List Char) (tokens : List Token)

/-- Reads a function expression or an arrow function, to the end of its statement. -/
def functionValue (pos : Nat) : Checked Unit (List Pattern × Nat) := do
  let pos ← asyncValueWord tokens pos
  if isWord "function" (← current tokens pos) then
    let pos ← skipIf tokens (isMark .star) (pos + 1)
    let pos ← skipIf tokens (fun slot => (word? slot).isSome) pos
    let (ps, next) ← parameterList text tokens pos
    let stop ← skipBody tokens (width text) next
    pure (ps, stop)
  else
    match word? (← current tokens pos) with
    | some name =>
      if isMark .arrow (← peek tokens pos 1) then
        let stop ← skipArrow tokens (width text) (pos + 1)
        pure ([.ident name], stop)
      else refuse ()
    | none =>
      if isMark .parenOpen (← current tokens pos) then
        let (ps, next) ← parameterList text tokens pos
        let stop ← skipArrow tokens (width text) next
        pure (ps, stop)
      else refuse ()

/-- Reads the parameters and the body of a function declaration. -/
def declared (pos : Nat) : Checked Unit (List Pattern × Nat) := do
  let (ps, next) ← parameterList text tokens pos
  let stop ← skipBlock tokens next
  pure (ps, stop)

/-- Reads a function declaration behind the word `function`. -/
def declaration (isDefault : Bool) (pos : Nat) :
    Checked Unit ((String × List Pattern) × Nat) := do
  let pos ← skipIf tokens (isMark .star) pos
  match word? (← current tokens pos) with
  | some name =>
    let (ps, stop) ← declared text tokens (pos + 1)
    pure ((name, ps), stop)
  | none =>
    if isDefault then
      let (ps, stop) ← declared text tokens pos
      pure (("default", ps), stop)
    else refuse ()

/-- Reads a name bound to a function value, behind the word that binds it. -/
def binding (pos : Nat) : Checked Unit ((String × List Pattern) × Nat) := do
  match word? (← current tokens pos) with
  | some name =>
    if isMark .assign (← current tokens (pos + 1)) then
      let (ps, stop) ← functionValue text tokens (pos + 2)
      pure ((name, ps), stop)
    else refuse ()
  | none => refuse ()

/-- Reads a statement that declares a function. -/
def function (pos : Nat) : Checked Unit ((String × List Pattern) × Nat) := do
  let (isDefault, pos) ← exportWords tokens pos
  let pos ← asyncWord tokens pos
  if isWord "function" (← current tokens pos) then declaration text tokens isDefault (pos + 1)
  else if isDefault then refuse ()
  else if (word? (← current tokens pos)).any bindingWords.contains then
    binding text tokens (pos + 1)
  else refuse ()

/-! ## Statements -/

/-- Reads top-level statements from a slot on; `previousStop` is where the statement before them
stopped. -/
def statements (previousStop : Option Nat) (pos : Nat) : Checked Error (List Declaration) := do
  match ← current tokens pos with
  | none => pure []
  | some t =>
    if t.lexeme = .mark .semicolon then
      let ⟨next, _⟩ ← further? tokens.length pos (pos + 1)
      statements previousStop next
    else
      match ← attempt (function text tokens pos) with
      | .ok ((name, params), stop) =>
        let last ← before tokens stop
        let ⟨next, _⟩ ← further? tokens.length pos stop
        let ds ← statements (some last.stop) next
        pure (⟨name, params, t.start, last.stop, previousStop⟩ :: ds)
      | .error () =>
        let stop ← statementEnd tokens (width text) 0 pos
        let last ← before tokens stop
        let ⟨next, _⟩ ← further? tokens.length pos stop
        statements (some last.stop) next
termination_by tokens.length - pos

end Readers

/-- Reads the functions and the comments of a source text. -/
def readModule (source : List Char) : Checked Error File := do
  let l ← tokenize source
  let ds ← statements source l.tokens none 0
  pure ⟨ds, l.comments⟩

end CallContract.Source.Checked
