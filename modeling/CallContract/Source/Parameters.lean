import CallContract.Pattern
import CallContract.Source.NumberLiteral
import CallContract.Source.Statement
import CallContract.Source.Stretch

/-!
# Reading parameters

Reads parameter lists off tokens. Each reader says how many tokens it took, so what it read is
an initial part of the tokens and what is left is the rest. A parameter that is no readable
pattern is kept as text, and the parameters after it are still read.
-/

namespace CallContract.Source

/-- Why nothing was read: the tokens have another form, or a stretch of text does not exist. -/
inductive Setback where
  | otherForm
  | badSlice
deriving DecidableEq, Repr

/-- The text of tokens, from the start of the first to the stop of the last. -/
def textOf (text : List Char) (ts : List Token) : Except Setback String :=
  match ts.head?, ts.getLast? with
  | some first, some last =>
    match stretch? text first.start last.stop with
    | some s => .ok (String.ofList s)
    | none => .error .badSlice
  | _, _ => .ok ""

/-! ## Default values -/

/-- How many tokens a default value takes: up to a comma or a closing bracket outside all
brackets of its own. -/
def defaultLength? (depth : Nat) : List Token → Option Nat
  | [] => none
  | t :: ts =>
    match depthAfter? depth t.lexeme with
    | none => some 0
    | some d =>
      if depth = 0 ∧ t.lexeme = .mark .comma then some 0
      else (defaultLength? d ts).map (· + 1)

/-- The literal that a single token, or a minus sign and a number, stands for. -/
def literal? : List Token → Option Json.Value
  | [t] =>
    match t.lexeme with
    | .string value => some (.string value)
    | .template (some body) => some (.string body)
    | .number spelling => (numberLiteral? spelling.toList false).map .number
    | .word "true" => some (.bool true)
    | .word "false" => some (.bool false)
    | .word "null" => some .null
    | _ => none
  | [sign, t] =>
    match sign.lexeme, t.lexeme with
    | .mark .minus, .number spelling => (numberLiteral? spelling.toList true).map .number
    | _, _ => none
  | _ => none

/-- What a default value made of these tokens is. -/
def classifyDefault (text : List Char) (ts : List Token) : Except Setback DefaultExpr :=
  match literal? ts with
  | some value => .ok (.literal value)
  | none =>
    let other := (textOf text ts).map DefaultExpr.other
    match ts with
    | [] => other
    | t :: r =>
      match t.lexeme with
      | .word name =>
        match r with
        | [] => .ok (.name name)
        | op :: l =>
          match op.lexeme, literal? l with
          | .mark .nullish, some value => .ok (.coalesce name value)
          | _, _ => other
      | _ => other

/-- Reads a default value. -/
def readDefault (text : List Char) (ts : List Token) : Except Setback (DefaultExpr × Nat) :=
  match defaultLength? 0 ts with
  | none => .error .otherForm
  | some 0 => .error .otherForm
  | some n => (classifyDefault text (ts.take n)).map fun d => (d, n)

/-! ## Patterns -/

/-- The key that a token is. -/
def propertyKey (text : List Char) (t : Token) : Except Setback PropertyKey :=
  match t.lexeme with
  | .word name => .ok (.ident name)
  | .number spelling => .ok (.number spelling)
  | .string value => (textOf text [t]).map fun spelling => .quoted value spelling
  | _ => .error .otherForm

/-- Reads a default value, if an equals sign is there, and puts it on a pattern that took `n`
tokens. -/
def withDefault (text : List Char) (p : Pattern) (n : Nat) (ts : List Token) :
    Except Setback (Pattern × Nat) :=
  match ts with
  | t :: r =>
    if t.lexeme = .mark .assign then
      (readDefault text r).map fun d => (.withDefault p d.1, n + 1 + d.2)
    else .ok (p, n)
  | [] => .ok (p, n)

mutual

/-- Reads a name, an object pattern or an array pattern. -/
def readTarget (text : List Char) (ts : List Token) : Except Setback (Pattern × Nat) :=
  match ts with
  | [] => .error .otherForm
  | t :: r =>
    match t.lexeme with
    | .word name => .ok (.ident name, 1)
    | .mark .braceOpen =>
      match readProperties text r with
      | .error e => .error e
      | .ok (ps, n) => .ok (.object ps, n + 1)
    | .mark .bracketOpen =>
      match readElements text r with
      | .error e => .error e
      | .ok (es, n) => .ok (.array es, n + 1)
    | _ => .error .otherForm
termination_by 3 * ts.length

/-- Reads a pattern: three points and a target, or a target and a default value. -/
def readPattern (text : List Char) (ts : List Token) : Except Setback (Pattern × Nat) :=
  match ts with
  | [] => .error .otherForm
  | t :: r =>
    if t.lexeme = .mark .ellipsis then
      match readTarget text r with
      | .error e => .error e
      | .ok (p, n) => .ok (.rest p, n + 1)
    else
      match readTarget text (t :: r) with
      | .error e => .error e
      | .ok (p, n) => withDefault text p n ((t :: r).drop n)
termination_by 3 * ts.length + 1

/-- Reads properties and the closing brace. -/
def readProperties (text : List Char) (ts : List Token) :
    Except Setback (List PropertyPattern × Nat) :=
  match ts with
  | [] => .error .otherForm
  | t :: r =>
    if t.lexeme = .mark .braceClose then .ok ([], 1)
    else
      match readProperty text t r with
      | .error e => .error e
      | .ok (p, n) =>
        match h : r.drop n with
        | [] => .error .otherForm
        | u :: s =>
          if u.lexeme = .mark .comma then
            have : s.length < r.length := by
              have := congrArg List.length h
              simp only [List.length_drop, List.length_cons] at this
              omega
            match readProperties text s with
            | .error e => .error e
            | .ok (ps, m) => .ok (p :: ps, 1 + n + 1 + m)
          else if u.lexeme = .mark .braceClose then .ok ([p], 1 + n + 1)
          else .error .otherForm
termination_by 3 * ts.length + 2

/-- Reads the property that starts with the token `t`; the count is of the tokens after it. -/
def readProperty (text : List Char) (t : Token) (ts : List Token) :
    Except Setback (PropertyPattern × Nat) :=
  if t.lexeme = .mark .ellipsis then
    match readTarget text ts with
    | .error e => .error e
    | .ok (p, n) => .ok (.rest p, n)
  else
    match propertyKey text t with
    | .error e => .error e
    | .ok key =>
      match ts with
      | [] =>
        match key with
        | .ident name => .ok (.property key (.ident name), 0)
        | _ => .error .otherForm
      | u :: r =>
        if u.lexeme = .mark .colon then
          match readPattern text r with
          | .error e => .error e
          | .ok (p, n) => .ok (.property key p, n + 1)
        else
          match key with
          | .ident name =>
            match withDefault text (.ident name) 0 (u :: r) with
            | .error e => .error e
            | .ok (p, n) => .ok (.property key p, n)
          | _ => .error .otherForm
termination_by 3 * ts.length + 2

/-- Reads elements, which may be missing, and the closing bracket. -/
def readElements (text : List Char) (ts : List Token) :
    Except Setback (List (Option Pattern) × Nat) :=
  match ts with
  | [] => .error .otherForm
  | t :: r =>
    if t.lexeme = .mark .bracketClose then .ok ([], 1)
    else if t.lexeme = .mark .comma then
      match readElements text r with
      | .error e => .error e
      | .ok (es, n) => .ok (none :: es, n + 1)
    else
      match readPattern text (t :: r) with
      | .error e => .error e
      | .ok (p, n) =>
        match h : (t :: r).drop n with
        | [] => .error .otherForm
        | u :: s =>
          if u.lexeme = .mark .comma then
            have : s.length ≤ r.length := by
              have := congrArg List.length h
              simp only [List.length_drop, List.length_cons] at this
              omega
            match readElements text s with
            | .error e => .error e
            | .ok (es, m) => .ok (some p :: es, n + 1 + m)
          else if u.lexeme = .mark .bracketClose then .ok ([some p], n + 1)
          else .error .otherForm
termination_by 3 * ts.length + 2

end

/-! ## Parameter lists -/

/-- How many tokens stand before the comma or the parenthesis that ends a parameter. -/
def parameterLength? (depth : Nat) : List Token → Option Nat
  | [] => none
  | t :: ts =>
    if depth = 0 ∧ (t.lexeme = .mark .comma ∨ t.lexeme = .mark .parenClose) then some 0
    else
      match depthAfter? depth t.lexeme with
      | none => none
      | some d => (parameterLength? d ts).map (· + 1)

/-- Reads a parameter, or keeps the text of one that is no readable pattern. -/
def readParameter (text : List Char) (ts : List Token) : Except Setback (Pattern × Nat) :=
  match readPattern text ts with
  | .ok r => .ok r
  | .error .badSlice => .error .badSlice
  | .error .otherForm =>
    match parameterLength? 0 ts with
    | none => .error .otherForm
    | some n => (textOf text (ts.take n)).map fun s => (.unsupported s, n)

/-- Reads parameters and the closing parenthesis. -/
def readParameters (text : List Char) (ts : List Token) :
    Except Setback (List Pattern × Nat) :=
  match ts with
  | [] => .error .otherForm
  | t :: r =>
    if t.lexeme = .mark .parenClose then .ok ([], 1)
    else
      match readParameter text (t :: r) with
      | .error e => .error e
      | .ok (p, n) =>
        match h : (t :: r).drop n with
        | [] => .error .otherForm
        | u :: s =>
          if u.lexeme = .mark .comma then
            have : s.length ≤ r.length := by
              have := congrArg List.length h
              simp only [List.length_drop, List.length_cons] at this
              omega
            match readParameters text s with
            | .error e => .error e
            | .ok (ps, m) => .ok (p :: ps, n + 1 + m)
          else if u.lexeme = .mark .parenClose then .ok ([p], n + 1)
          else .error .otherForm
termination_by ts.length

/-- Reads a parenthesised parameter list. -/
def readParameterList (text : List Char) : List Token → Except Setback (List Pattern × Nat)
  | [] => .error .otherForm
  | t :: ts =>
    if t.lexeme = .mark .parenOpen then
      (readParameters text ts).map fun r => (r.1, r.2 + 1)
    else .error .otherForm

end CallContract.Source
