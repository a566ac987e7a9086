import CallContract.Source.Token

/-!
# Where statements end

Statements are skipped by balance of brackets. `skipStatement` measures how many tokens a
statement takes: up to a semicolon, or up to a place where one is understood (`endsHere`).
-/

namespace CallContract.Source

/-- Whether a lexeme can only go on with the statement before it. -/
def continuesStatement : Lexeme → Bool
  | .mark m => m != .braceOpen && m != .semicolon && m != .ellipsis
  | .template _ => true
  | .operator o => ! ["!", "~", "++", "--", "@", "#"].contains o
  | .word name => ["instanceof", "in", "of"].contains name
  | _ => false

/-- Whether an expression may end with a lexeme. -/
def endsExpression : Lexeme → Bool
  | .word name =>
    ! ["return", "typeof", "new", "delete", "void", "throw", "await", "yield", "const", "let",
      "var", "export", "import", "async"].contains name
  | .number _ => true
  | .string _ => true
  | .template _ => true
  | .regex => true
  | .mark m => m.closes
  | .operator o => o == "++" || o == "--"

/-- The words that go on with a statement after a closing brace. -/
def afterBraceWords : List String := ["else", "catch", "finally", "while", "from", "as"]

/-- Whether a lexeme is one of these words. -/
def Lexeme.isWordOf (ws : List String) : Lexeme → Bool
  | .word name => ws.contains name
  | _ => false

/-- Whether a statement ends between a token and the tokens after it: at the end of the text,
after a closing brace, or at a line break after what may end an expression, unless the next
token goes on with the statement. -/
def endsHere (last : Token) : List Token → Bool
  | [] => true
  | next :: _ =>
    if continuesStatement next.lexeme then false
    else if last.lexeme = .mark .braceClose then !next.lexeme.isWordOf afterBraceWords
    else next.afterBreak && endsExpression last.lexeme

/-- The depth of brackets after a lexeme; `none` if it closes one that is not open. -/
def depthAfter? (depth : Nat) (l : Lexeme) : Option Nat :=
  if l.opens then some (depth + 1)
  else if l.closes then
    match depth with
    | 0 => none
    | d + 1 => some d
  else some depth

/-- How many tokens the rest of a statement takes inside `depth` brackets; `size` is where the
text ends. -/
def skipStatement (size depth : Nat) : List Token → Except Error Nat
  | [] => if depth = 0 then .ok 0 else .error ⟨size, .openBracket⟩
  | t :: ts =>
    if t.lexeme = .mark .semicolon ∧ depth = 0 then .ok 1
    else
      match depthAfter? depth t.lexeme with
      | none => .error ⟨t.start, .strayBracket⟩
      | some d =>
        if d = 0 ∧ endsHere t ts = true then .ok 1
        else
          match skipStatement size d ts with
          | .error e => .error e
          | .ok n => .ok (n + 1)

end CallContract.Source
