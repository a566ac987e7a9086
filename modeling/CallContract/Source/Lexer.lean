import CallContract.Source.Escape
import CallContract.Source.Token
import CallContract.Text.Split

/-!
# Cutting source text into tokens

`tokenize` cuts a text into tokens and comments. The functions before it measure how many
characters a literal takes, so a token is always a stretch of the text and its offsets follow
from the widths of its characters. A slash starts a regular expression where the token before
it cannot end an operand (`regexMayFollow`).
-/

namespace CallContract.Source

/-! ## Character classes -/

/-- The characters between tokens; only the line feed breaks lines. -/
def isGap (c : Char) : Bool := c = ' ' || c = '\t' || c = '\n' || c = '\x0c' || c = '\r'

/-- The characters that a number goes on with. -/
def isNumberPart (c : Char) : Bool := c.isAlphanum || c = '_'

/-- The characters that a word starts with; beyond U+007F all of them. -/
def startsWord (c : Char) : Bool := c.isAlpha || c = '_' || c = '$' || 0x80 ≤ c.toNat

/-- The characters that a word goes on with. -/
def continuesWord (c : Char) : Bool := c.isAlphanum || c = '_' || c = '$' || 0x80 ≤ c.toNat

/-! ## Literals -/

/-- Reads the inside of a string literal and its closing quote: the decoded text, and how many
characters were taken. -/
def stringBody (quote : Char) (s : List Char) : Except Cause (List Char × Nat) :=
  match s with
  | [] => .error .openString
  | c :: r =>
    if c = quote then .ok ([], 1)
    else if c = '\n' then .error .openString
    else if c = '\\' then
      if r.isEmpty then .error .openString
      else
        match escape? r with
        | none => .error .badEscape
        | some (cs, n) =>
          match stringBody quote (r.drop n) with
          | .error e => .error e
          | .ok (t, k) => .ok (cs ++ t, k + n + 1)
    else
      match stringBody quote r with
      | .error e => .error e
      | .ok (t, k) => .ok (c :: t, k + 1)
termination_by s.length
decreasing_by all_goals simp; try omega

mutual

/-- Reads the inside of a template, which starts at byte `start` and of which `s` is left from
byte `pos` on, and its closing quote: its text unless it has substitutions, and how many
characters were taken. -/
def templateBody (start pos : Nat) (s : List Char) :
    Except Error (Option (List Char) × Nat) :=
  match s with
  | [] => .error ⟨start, .openTemplate⟩
  | '\x60' :: _ => .ok (some [], 1)
  | '\\' :: r =>
    match templateBody start (pos + width (s.take 2)) (r.drop 1) with
    | .error e => .error e
    | .ok (body, n) => .ok (body.map (s.take 2 ++ ·), n + 2)
  | '$' :: '{' :: r =>
    match substitution (pos + 2) (pos + 2) 0 r with
    | .error e => .error e
    | .ok n =>
      match templateBody start (pos + 2 + width (r.take n)) (r.drop n) with
      | .error e => .error e
      | .ok (_, m) => .ok (none, m + n + 2)
  | c :: r =>
    match templateBody start (pos + c.utf8Size) r with
    | .error e => .error e
    | .ok (body, n) => .ok (body.map (c :: ·), n + 1)
termination_by s.length
decreasing_by all_goals simp; try omega

/-- Reads a template substitution, which starts at byte `start` and of which `s` is left from
byte `pos` on, inside `depth` braces of its own: how many characters were taken, the closing
brace included. -/
def substitution (start pos depth : Nat) (s : List Char) : Except Error Nat :=
  match s with
  | [] => .error ⟨start, .openSubstitution⟩
  | c :: r =>
    if c = '}' then
      match depth with
      | 0 => .ok 1
      | d + 1 =>
        match substitution start (pos + 1) d r with
        | .error e => .error e
        | .ok n => .ok (n + 1)
    else if c = '"' ∨ c = '\x27' then
      match stringBody c r with
      | .error e => .error ⟨pos, e⟩
      | .ok (_, k) =>
        match substitution start (pos + 1 + width (r.take k)) depth (r.drop k) with
        | .error e => .error e
        | .ok n => .ok (n + k + 1)
    else if c = '\x60' then
      match templateBody pos (pos + 1) r with
      | .error e => .error e
      | .ok (_, k) =>
        match substitution start (pos + 1 + width (r.take k)) depth (r.drop k) with
        | .error e => .error e
        | .ok n => .ok (n + k + 1)
    else
      match substitution start (pos + c.utf8Size) (if c = '{' then depth + 1 else depth) r with
      | .error e => .error e
      | .ok n => .ok (n + 1)
termination_by s.length
decreasing_by all_goals simp; try omega

end

/-- Whether digits and letters that belong together are a hexadecimal number so far. -/
def isHexRun : List Char → Bool
  | '0' :: 'x' :: _ => true
  | '0' :: 'X' :: _ => true
  | _ => false

/-- Whether a sign after these digits and letters starts an exponent. -/
def signMayFollow (run : List Char) : Bool :=
  (run.getLast? = some 'e' || run.getLast? = some 'E') && !isHexRun run

/-- How many characters a number goes on for, after the digits and letters `run`. A sign
belongs to it only after the letter of an exponent. -/
def numberLength : List Char → List Char → Nat
  | _, [] => 0
  | run, c :: s =>
    if isNumberPart c then numberLength (run ++ [c]) s + 1
    else if c = '.' then numberLength [] s + 1
    else if (c = '+' ∨ c = '-') ∧ signMayFollow run then numberLength [] s + 1
    else 0

/-- How many characters a regular expression takes after its opening slash, flags included. A
slash in a class of characters does not close it, and a line break refuses it. -/
def regexLength? : Bool → List Char → Option Nat
  | _, [] => none
  | inClass, '\\' :: _ :: s => (regexLength? inClass s).map (· + 2)
  | _, '[' :: s => (regexLength? true s).map (· + 1)
  | _, ']' :: s => (regexLength? false s).map (· + 1)
  | inClass, c :: s =>
    if c = '/' ∧ inClass = false then some ((s.takeWhile continuesWord).length + 1)
    else if c = '\n' ∨ c = '\\' then none
    else (regexLength? inClass s).map (· + 1)

/-- How many characters stand before the end of a block comment. -/
def blockLength? : List Char → Option Nat
  | [] => none
  | '*' :: '/' :: _ => some 0
  | _ :: s => (blockLength? s).map (· + 1)

/-! ## Operators -/

/-- The operators, each before those it starts with. -/
def operators : List String :=
  [">>>=", "...", "===", "!==", "**=", "<<=", ">>=", ">>>", "&&=", "||=", "??=", "=>", "==",
    "!=", "<=", ">=", "&&", "||", "??", "?.", "++", "--", "+=", "-=", "*=", "/=", "%=", "&=",
    "|=", "^=", "**", "<<", ">>", "=", "+", "-", "*", "/", "%", "<", ">", "!", "&", "|", "^",
    "~", "?", ":", ";", ",", ".", "(", ")", "\x7b", "\x7d", "[", "]", "@", "#"]

/-- The operator that a text starts with. -/
def operator? (s : List Char) : Option String :=
  operators.find? fun o => Text.startsWith o.toList s

/-- The lexeme of an operator: a mark if it has a role in declarations. -/
def operatorLexeme (o : String) : Lexeme :=
  match Mark.ofSpelling? o with
  | some m => .mark m
  | none => .operator o

/-- The words that an operand follows. -/
def operandWords : List String :=
  ["return", "typeof", "instanceof", "in", "of", "new", "delete", "void", "throw", "case",
    "do", "else", "yield", "await"]

/-- Whether a slash after this lexeme starts a regular expression. -/
def regexMayFollow : Option Lexeme → Bool
  | none => true
  | some (.word name) => operandWords.contains name
  | some (.number _) => false
  | some (.string _) => false
  | some (.template _) => false
  | some .regex => false
  | some (.mark m) => !m.closes
  | some (.operator o) => o != "++" && o != "--"

/-! ## Tokens -/

/-- Reads the lexeme that starts with `c` at byte `pos` and goes on in `r`: what it is, and how
many characters of `r` belong to it. -/
def lexemeAt (previous : Option Lexeme) (pos : Nat) (c : Char) (r : List Char) :
    Except Error (Lexeme × Nat) :=
  if c = '"' ∨ c = '\x27' then
    match stringBody c r with
    | .error e => .error ⟨pos, e⟩
    | .ok (value, n) => .ok (.string (String.ofList value), n)
  else if c = '\x60' then
    match templateBody pos (pos + 1) r with
    | .error e => .error e
    | .ok (body, n) => .ok (.template (body.map String.ofList), n)
  else if c.isDigit ∨ (c = '.' ∧ (r.head?.any Char.isDigit)) then
    let n := numberLength (if c = '.' then [] else [c]) r
    .ok (.number (String.ofList (c :: r.take n)), n)
  else if c = '/' ∧ regexMayFollow previous then
    match regexLength? false r with
    | none => .error ⟨pos, .openRegex⟩
    | some n => .ok (.regex, n)
  else if startsWord c then
    let n := (r.takeWhile continuesWord).length
    .ok (.word (String.ofList (c :: r.take n)), n)
  else
    match operator? (c :: r) with
    | none => .error ⟨pos, .strayCharacter c⟩
    | some o => .ok (operatorLexeme o, o.length - 1)

/-- Tokens and comments of a text, in order. -/
structure Pieces where
  tokens : List Token
  comments : List Comment

/-- Cuts up the text `s` that starts at byte `pos`, where `broken` says whether a line break
came since the last token. -/
def piecesFrom (pos : Nat) (broken : Bool) (previous : Option Lexeme) (s : List Char) :
    Except Error Pieces :=
  match s with
  | [] => .ok ⟨[], []⟩
  | c :: r =>
    if isGap c then piecesFrom (pos + 1) (broken || c = '\n') previous r
    else if c = '/' ∧ r.head? = some '/' then
      let text := (r.drop 1).takeWhile (· ≠ '\n')
      let stop := pos + 2 + width text
      match piecesFrom stop broken previous (r.drop (1 + text.length)) with
      | .error e => .error e
      | .ok p => .ok { p with comments := ⟨false, String.ofList text, pos, stop⟩ :: p.comments }
    else if c = '/' ∧ r.head? = some '*' then
      match blockLength? (r.drop 1) with
      | none => .error ⟨pos, .openComment⟩
      | some n =>
        let text := (r.drop 1).take n
        let stop := pos + 4 + width text
        match piecesFrom stop (broken || text.contains '\n') previous (r.drop (n + 3)) with
        | .error e => .error e
        | .ok p => .ok { p with comments := ⟨true, String.ofList text, pos, stop⟩ :: p.comments }
    else
      match lexemeAt previous pos c r with
      | .error e => .error e
      | .ok (lexeme, n) =>
        let stop := pos + c.utf8Size + width (r.take n)
        match piecesFrom stop false (some lexeme) (r.drop n) with
        | .error e => .error e
        | .ok p => .ok { p with tokens := ⟨lexeme, pos, stop, broken⟩ :: p.tokens }
termination_by s.length
decreasing_by all_goals simp; try omega

/-- Cuts a source text into tokens and comments. -/
def tokenize (source : List Char) : Except Error Lexed :=
  match piecesFrom 0 false none source with
  | .error e => .error e
  | .ok p => .ok ⟨p.tokens, p.comments, width source⟩

end CallContract.Source
