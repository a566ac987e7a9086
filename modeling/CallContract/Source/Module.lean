import CallContract.Source.Lexer
import CallContract.Source.Parameters

/-!
# Reading a source text

`readModule` reads the top-level functions of a source text and all its comments. A statement
that declares no function is skipped by balance of brackets, and so is one that looks like a
function but cannot be read as one; where it stops is remembered for the declaration that
follows. Only a text that cannot be cut into tokens, or whose brackets do not balance in a
skipped statement, is refused.
-/

namespace CallContract.Source

/-- The declarations and the comments of a source text, in order. -/
structure File where
  declarations : List Declaration
  comments : List Comment

/-- Whether tokens start with a word. -/
def startsWithWord (w : String) : List Token → Bool
  | t :: _ => t.lexeme == .word w
  | [] => false

/-- Whether tokens start with a mark. -/
def startsWithMark (m : Mark) : List Token → Bool
  | t :: _ => t.lexeme == .mark m
  | [] => false

/-- The word that tokens start with. -/
def firstWord? : List Token → Option String
  | [] => none
  | t :: _ =>
    match t.lexeme with
    | .word name => some name
    | _ => none

/-- How many tokens a block takes after its opening brace, inside `depth` more brackets. -/
def blockRest? (depth : Nat) : List Token → Option Nat
  | [] => none
  | t :: ts =>
    match depthAfter? depth t.lexeme with
    | none => some 1
    | some d => (blockRest? d ts).map (· + 1)

/-- How many tokens a block in braces takes. -/
def blockTokens (ts : List Token) : Except Setback Nat :=
  match ts with
  | [] => .error .otherForm
  | t :: r =>
    if t.lexeme = .mark .braceOpen then
      match blockRest? 0 r with
      | none => .error .otherForm
      | some n => .ok (n + 1)
    else .error .otherForm

/-- How many tokens the rest of a statement takes, as a step of reading a function. -/
def statementTokens (size : Nat) (ts : List Token) : Except Setback Nat :=
  match skipStatement size 0 ts with
  | .error _ => .error .otherForm
  | .ok n => .ok n

/-- How many tokens end a statement after the token `last`: a semicolon, or what goes on with
the statement. -/
def finishTokens (size : Nat) (last : Option Token) (ts : List Token) : Except Setback Nat :=
  if startsWithMark .semicolon ts then .ok 1
  else if last.any (endsHere · ts) then .ok 0
  else statementTokens size ts

/-- How many tokens a function body in braces takes, with what ends its statement. -/
def bodyTokens (size : Nat) (ts : List Token) : Except Setback Nat := do
  let n ← blockTokens ts
  let m ← finishTokens size (ts.take n).getLast? (ts.drop n)
  .ok (n + m)

/-- How many tokens the body of an arrow function takes, with what ends its statement. -/
def arrowBodyTokens (size : Nat) (ts : List Token) : Except Setback Nat :=
  if startsWithMark .braceOpen ts then bodyTokens size ts else statementTokens size ts

/-- Reads the arrow and the body of an arrow function. -/
def arrowTokens (size : Nat) (ts : List Token) : Except Setback Nat :=
  if startsWithMark .arrow ts then (arrowBodyTokens size (ts.drop 1)).map (· + 1)
  else .error .otherForm

/-- How many tokens the word before an asynchronous function value takes. -/
def asyncTokens (ts : List Token) : Nat :=
  let next := ts.drop 1
  if startsWithWord "async" ts ∧
      (startsWithWord "function" next ∨ startsWithMark .parenOpen next ∨
        ((firstWord? next).isSome ∧ startsWithMark .arrow (next.drop 1)))
  then 1 else 0

/-- How many tokens a condition takes: one if it holds. -/
def oneIf (b : Bool) : Nat := if b then 1 else 0

/-- Reads a function expression or an arrow function, to the end of its statement. -/
def readFunctionValue (text : List Char) (size : Nat) (ts : List Token) :
    Except Setback (List Pattern × Nat) := do
  let a := asyncTokens ts
  let ts := ts.drop a
  if startsWithWord "function" ts then
    let s := oneIf (startsWithMark .star (ts.drop 1))
    let w := oneIf (firstWord? (ts.drop (1 + s))).isSome
    let (ps, n) ← readParameterList text (ts.drop (1 + s + w))
    let m ← bodyTokens size (ts.drop (1 + s + w + n))
    .ok (ps, a + (1 + s + w + n + m))
  else
    match firstWord? ts with
    | some name =>
      let m ← arrowTokens size (ts.drop 1)
      .ok ([.ident name], a + (1 + m))
    | none =>
      let (ps, n) ← readParameterList text ts
      let m ← arrowTokens size (ts.drop n)
      .ok (ps, a + (n + m))

/-- Reads the parameters and the body of a function declaration. -/
def readDeclared (text : List Char) (ts : List Token) : Except Setback (List Pattern × Nat) := do
  let (ps, n) ← readParameterList text ts
  let m ← blockTokens (ts.drop n)
  .ok (ps, n + m)

/-- The words that bind a name to a value. -/
def bindingWords : List String := ["const", "let", "var"]

/-- Reads a statement that declares a function: a function declaration, exported or not, or a
name bound to a function value. -/
def readFunction (text : List Char) (size : Nat) (ts : List Token) :
    Except Setback ((String × List Pattern) × Nat) := do
  let exported := startsWithWord "export" ts
  let isDefault := exported && startsWithWord "default" (ts.drop 1)
  let x := oneIf exported + oneIf isDefault
  let ts := ts.drop x
  let a := oneIf (startsWithWord "async" ts && startsWithWord "function" (ts.drop 1))
  let ts := ts.drop a
  if startsWithWord "function" ts then
    let s := oneIf (startsWithMark .star (ts.drop 1))
    match firstWord? (ts.drop (1 + s)) with
    | some name =>
      let (ps, n) ← readDeclared text (ts.drop (1 + s + 1))
      .ok ((name, ps), x + a + (1 + s + 1 + n))
    | none =>
      if isDefault then
        let (ps, n) ← readDeclared text (ts.drop (1 + s))
        .ok (("default", ps), x + a + (1 + s + n))
      else .error .otherForm
  else
    match firstWord? ts, firstWord? (ts.drop 1) with
    | some binder, some name =>
      if isDefault = false ∧ bindingWords.contains binder ∧
          startsWithMark .assign (ts.drop 2) then
        let (ps, n) ← readFunctionValue text size (ts.drop 3)
        .ok ((name, ps), x + a + (3 + n))
      else .error .otherForm
    | _, _ => .error .otherForm

/-- Reads a top-level statement, which takes at least one token: the function that it declares,
if any, and how many tokens follow its first one. -/
def readStatement (text : List Char) (size : Nat) (ts : List Token) :
    Except Error (Option (String × List Pattern) × Nat) :=
  match readFunction text size ts with
  | .ok (f, n) => .ok (some f, n - 1)
  | .error .badSlice => .error ⟨size, .badSlice⟩
  | .error .otherForm =>
    match skipStatement size 0 ts with
    | .error e => .error e
    | .ok n => .ok (none, n - 1)

/-- Reads top-level statements; `previousStop` is where the statement before them stopped. -/
def readStatements (text : List Char) (size : Nat) (previousStop : Option Nat)
    (ts : List Token) : Except Error (List Declaration) :=
  match ts with
  | [] => .ok []
  | t :: r =>
    if t.lexeme = .mark .semicolon then readStatements text size previousStop r
    else
      match readStatement text size (t :: r) with
      | .error e => .error e
      | .ok (f, n) =>
        let stop := ((r.take n).getLast?.getD t).stop
        match readStatements text size (some stop) (r.drop n) with
        | .error e => .error e
        | .ok ds =>
          match f with
          | none => .ok ds
          | some (name, params) => .ok (⟨name, params, t.start, stop, previousStop⟩ :: ds)
termination_by ts.length
decreasing_by all_goals simp; try omega

/-- Reads the functions and the comments of a source text. -/
def readModule (source : List Char) : Except Error File :=
  match tokenize source with
  | .error e => .error e
  | .ok l =>
    match readStatements source l.size none l.tokens with
    | .error e => .error e
    | .ok ds => .ok ⟨ds, l.comments⟩

end CallContract.Source
