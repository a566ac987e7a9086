import CallContract.Source.Checked.Access
import CallContract.Source.Lexer

/-!
# Cutting source text into tokens, with checks

The scanners of `tokenize` as they go over the bytes of a text. Templates, regular expressions
and words are gone over byte by byte, also through characters of several bytes; texts are cut out
by the offsets that the scanners find.
-/

namespace CallContract.Source.Checked

open CallContract.Json (isHighHalf isLowHalf)

/-! ## String literals -/

/-- The character that two halves of a surrogate pair stand for. -/
def joinHalves (high low : Nat) : Option (Option Char) := do
  let front ← subtract? high 0xd800
  let back ← subtract? low 0xdc00
  return charOf? (0x10000 + front * 0x400 + back)

/-- Reads what follows `\u`. -/
def unicodeEscape : List Char → Option (Option (Char × Nat))
  | '{' :: s => some (unicodeEscape? ('{' :: s))
  | a :: b :: c :: d :: s =>
    match hexValue? [a, b, c, d] with
    | none => some none
    | some high =>
      if isHighHalf high then
        match s with
        | '\\' :: 'u' :: r =>
          match hexValue? (r.take 4) with
          | none => some none
          | some low =>
            if r.length < 4 then some none
            else if isLowHalf low then (joinHalves high low).map fun c => c.map (·, 10)
            else some (some (replacementChar, 4))
        | _ => some (some (replacementChar, 4))
      else some (some ((charOf? high).getD replacementChar, 4))
  | _ => some none

/-- Reads what follows a backslash. -/
def escape : List Char → Option (Option (List Char × Nat))
  | 'u' :: s => (unicodeEscape s).map fun p => p.map fun p => ([p.1], p.2 + 1)
  | s => some (escape? s)

/-- Reads the inside of a string literal and its closing quote. -/
def scanCharacters (quote : Char) (s : List Char) : Checked Cause (List Char × Nat) :=
  match s with
  | [] => refuse .openString
  | c :: r => do
    if c = quote then pure ([], 1)
    else if c = '\n' then refuse .openString
    else if c = '\\' then
      if r.isEmpty then refuse .openString
      else
        match ← escape r with
        | none => refuse .badEscape
        | some (cs, n) =>
          let (value, k) ← scanCharacters quote (r.drop n)
          pure (cs ++ value, k + n + 1)
    else
      let (value, k) ← scanCharacters quote r
      pure (c :: value, k + 1)
termination_by s.length
decreasing_by
  · simp only [List.length_cons, List.length_drop]
    omega
  · exact Nat.lt_succ_self _

section Scanners

variable (text : List Char)

/-- Reads the string literal that starts at a byte : its value, and where it stops. -/
def scanString (start : Nat) : Checked Error (List Char × Nat) := do
  let quote ← byte? text start
  let inside ← rest? text (start + 1)
  let (value, n) ← ExceptT.adapt (Error.mk start) (scanCharacters quote inside)
  pure (value, start + 1 + width (inside.take n))

/-! ## Templates -/

/-- The inside of a template, if it was not divided by substitutions. -/
def templateText (divided : Bool) (start stop : Nat) : Option (Option (List Char)) :=
  if divided then some none else (stretch? text start stop).map some

mutual

/-- Goes on at byte `pos` inside the template that starts at byte `start`, where `divided` says
whether a substitution came before : its text, and where it stops. -/
def scanTemplate (start pos : Nat) (divided : Bool) :
    Checked Error (Option (List Char) × Nat) := do
  if pos < width text then
    let b ← byte? text pos
    if b = '\\' then scanTemplate start (pos + 2) divided
    else if b = '\x60' then
      let body ← templateText text divided (start + 1) pos
      pure (body, pos + 1)
    else if b = '$' ∧ byte? text (pos + 1) = some '{' then
      let stop ← skipSubstitution (pos + 2) (pos + 2) 1
      let ⟨next, _⟩ ← further? (width text) pos stop
      scanTemplate start next true
    else scanTemplate start (pos + 1) divided
  else refuse ⟨start, .openTemplate⟩
termination_by width text - pos

/-- Goes on at byte `pos` inside the substitution that starts at byte `start`, inside `depth`
braces : where it stops. -/
def skipSubstitution (start pos depth : Nat) : Checked Error Nat := do
  if pos < width text then
    let b ← byte? text pos
    if b = '{' then skipSubstitution start (pos + 1) (depth + 1)
    else if b = '}' then
      let depth ← subtract? depth 1
      if depth = 0 then pure (pos + 1) else skipSubstitution start (pos + 1) depth
    else if b = '"' ∨ b = '\x27' then
      let (_, stop) ← scanString text pos
      let ⟨next, _⟩ ← further? (width text) pos stop
      skipSubstitution start next depth
    else if b = '\x60' then
      let (_, stop) ← scanTemplate pos (pos + 1) false
      let ⟨next, _⟩ ← further? (width text) pos stop
      skipSubstitution start next depth
    else skipSubstitution start (pos + 1) depth
  else refuse ⟨start, .openSubstitution⟩
termination_by width text - pos

end

/-! ## Numbers, words and regular expressions -/

/-- Where the digits and letters in front of a byte start. -/
def runStart : Nat → Option Nat
  | 0 => some 0
  | pos + 1 => do
    let b ← byte? text pos
    if isNumberPart b then runStart pos else some (pos + 1)

/-- Whether the digits and letters in front of a byte start a hexadecimal number. -/
def isHexPrefixed (pos : Nat) : Option Bool := do
  let start ← runStart text pos
  return byte? text start = some '0' ∧
    (byte? text (start + 1) = some 'x' ∨ byte? text (start + 1) = some 'X')

/-- Whether the byte `b` at `pos` is the sign of an exponent. -/
def isExponentSign (b : Char) (pos : Nat) : Option Bool := do
  if (b = '+' ∨ b = '-') ∧ 0 < pos then
    let before ← byte? text (← subtract? pos 1)
    if before = 'e' ∨ before = 'E' then (isHexPrefixed text pos).map (!·) else some false
  else some false

/-- Where the number stops that goes on at a byte. -/
def numberEnd (pos : Nat) : Option Nat := do
  if pos < width text then
    let b ← byte? text pos
    let sign ← isExponentSign text b pos
    if isNumberPart b ∨ b = '.' ∨ sign then numberEnd (pos + 1) else some pos
  else some pos
termination_by width text - pos

/-- Where the word stops that goes on at a byte. -/
def wordEnd (pos : Nat) : Option Nat := do
  if pos < width text then
    let b ← byte? text pos
    if continuesWord b then wordEnd (pos + 1) else some pos
  else some pos
termination_by width text - pos

/-- Where the regular expression stops that starts at byte `start` and goes on at `pos`, inside
a class of characters or not. -/
def regexEnd (start pos : Nat) (inClass : Bool) : Checked Error Nat := do
  if pos < width text then
    let b ← byte? text pos
    if b = '\\' then regexEnd start (pos + 2) inClass
    else if b = '[' then regexEnd start (pos + 1) true
    else if b = ']' then regexEnd start (pos + 1) false
    else if b = '/' ∧ inClass = false then wordEnd text (pos + 1)
    else if b = '\n' then refuse ⟨start, .openRegex⟩
    else regexEnd start (pos + 1) inClass
  else refuse ⟨start, .openRegex⟩
termination_by width text - pos

/-! ## Tokens -/

/-- Reads the lexeme that starts at byte `pos` with the byte `b` : what it is, and where it
stops. -/
def scanLexeme (previous : Option Lexeme) (pos : Nat) (b : Char) :
    Checked Error (Lexeme × Nat) := do
  if b = '"' ∨ b = '\x27' then
    let (value, stop) ← scanString text pos
    pure (.string (String.ofList value), stop)
  else if b = '\x60' then
    let (body, stop) ← scanTemplate text pos (pos + 1) false
    pure (.template (body.map String.ofList), stop)
  else if b.isDigit ∨ (b = '.' ∧ (byte? text (pos + 1)).any Char.isDigit) then
    let stop ← numberEnd text pos
    let spelling ← stretch? text pos stop
    pure (.number (String.ofList spelling), stop)
  else if b = '/' ∧ regexMayFollow previous then
    let stop ← regexEnd text pos (pos + 1) false
    pure (.regex, stop)
  else if startsWord b then
    let stop ← wordEnd text pos
    let name ← stretch? text pos stop
    pure (.word (String.ofList name), stop)
  else
    let rest ← rest? text pos
    match operator? rest with
    | none => refuse ⟨pos, .strayCharacter (rest.head?.getD '?')⟩
    | some o => pure (operatorLexeme o, pos + width o.toList)

/-- Cuts up the text from byte `pos` on. -/
def scanPieces (pos : Nat) (broken : Bool) (previous : Option Lexeme) :
    Checked Error Pieces := do
  if pos < width text then
    let b ← byte? text pos
    if isGap b then scanPieces (pos + 1) (broken || b = '\n') previous
    else if b = '/' ∧ byte? text (pos + 1) = some '/' then
      let rest ← rest? text pos
      let stop := pos + width (rest.takeWhile (· ≠ '\n'))
      let inside ← stretch? text (pos + 2) stop
      let ⟨next, _⟩ ← further? (width text) pos stop
      let p ← scanPieces next broken previous
      pure { p with comments := ⟨false, String.ofList inside, pos, stop⟩ :: p.comments }
    else if b = '/' ∧ byte? text (pos + 1) = some '*' then
      let rest ← rest? text (pos + 2)
      match blockLength? rest with
      | none => refuse ⟨pos, .openComment⟩
      | some n =>
        let stop := pos + 2 + width (rest.take n) + 2
        let inside ← stretch? text (pos + 2) (← subtract? stop 2)
        let p ← scanPieces stop (broken || inside.contains '\n') previous
        pure { p with comments := ⟨true, String.ofList inside, pos, stop⟩ :: p.comments }
    else
      let (lexeme, stop) ← scanLexeme text previous pos b
      let ⟨next, _⟩ ← further? (width text) pos stop
      let p ← scanPieces next false (some lexeme)
      pure { p with tokens := ⟨lexeme, pos, stop, broken⟩ :: p.tokens }
  else pure ⟨[], []⟩
termination_by width text - pos

/-- Cuts a source text into tokens and comments. -/
def tokenize : Checked Error Lexed := do
  let p ← scanPieces text 0 false none
  pure ⟨p.tokens, p.comments, width text⟩

end Scanners

end CallContract.Source.Checked
