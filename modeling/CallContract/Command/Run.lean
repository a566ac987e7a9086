import CallContract.Arguments
import CallContract.Command.File
import CallContract.Command.Flags
import CallContract.Registry.Schema
import CallContract.Stored.Contract
import CallContract.Stored.OptionSpec

/-!
# The program

What the program answers to the words it is called with. `Request.ofWords` reads all words that
do not depend on the file, `Request.report` answers when the file has been read: the contracts
of the file, the options of one function, the arguments of one call, or the schema of the named
types.
-/

namespace CallContract.Command

open Json (Node Value)

/-- What is asked about a file. -/
inductive Task where
  | contracts (output : OutputOptions)
  | options (function : String) (output : OutputOptions)
  | call (function : String) (words : List String)
  | types (output : OutputOptions)

/-- A file, and what is asked about it. -/
structure Request where
  file : String
  task : Task

/-- Why there is no answer. -/
inductive Failure where
  | usage (e : UsageError)
  | unreadable (file : String) (fault : FileFault)
  | source (e : Source.Error)
  | unknownFunction (function file : String)
  | arguments (e : ArgumentError)

/-- The wording of a failure. -/
def Failure.message : Failure → String
  | usage e => e.message
  | unreadable file fault => "failed to read '" ++ file ++ "': " ++ fault.message
  | source e => e.message
  | unknownFunction function file =>
    "function '" ++ function ++ "' not found in '" ++ file ++ "'"
  | arguments e => e.message

/-- What the program leaves behind: the exit code, and the lines of both outputs. -/
structure Report where
  code : Nat
  output : List String
  errors : List String
deriving DecidableEq, Repr

namespace Report

/-- Lines as a text. -/
def text (lines : List String) : String := String.join (lines.map (· ++ "\n"))

/-- The report of an answer, or of a failure, with warnings before it. -/
def ofResult (warnings : List Warning) : Except Failure String → Report
  | .ok out => ⟨0, [out], warnings.map warningLine⟩
  | .error e => ⟨1, [], warnings.map warningLine ++ e.message :: usageLines⟩
where
  /-- The line of a warning. -/
  warningLine (w : Warning) : String := "warning: " ++ w.message

end Report

namespace Task

/-- Whether all types of a file are recorded before its functions are looked at. -/
def hoists : Task → Bool
  | contracts o => o.hoist
  | options _ o => o.hoist
  | call _ _ => false
  | types o => o.hoist

/-- The options of the first contract of a function. -/
def schemaOf (file function : String) (cs : List Contract) : Except Failure OptionSchema :=
  match cs.find? (·.name == function) with
  | some c => .ok (.ofContract c)
  | none => .error (.unknownFunction function file)

/-- The arguments of a call. -/
def callArguments (schema : OptionSchema) (words : List String) : Except Failure Arguments :=
  match readFlags schema words with
  | .error e => .error (.usage e)
  | .ok values =>
    match Placement.map schema.placement values with
    | .error e => .error (.arguments e)
    | .ok args => .ok args

/-- The answer about a file whose contracts have been made. -/
def answer (file : String) (e : Extraction) : Task → Except Failure String
  | contracts o => .ok (contractsText e.contracts o.pretty)
  | options function o =>
    (schemaOf file function e.contracts).map fun s => s.value.node.text o.pretty
  | call function words =>
    match schemaOf file function e.contracts with
    | .error f => .error f
    | .ok s => (callArguments s words).map fun args => (Value.array args).compact
  | types o => .ok (e.registry.schemaText o.pretty)

end Task

namespace Request

/-- The request of words that name a command, a file and what the command needs. -/
def ofCommand (command file : String) (words : List String) : Except UsageError Request :=
  if command = "contracts" then
    (readOutputOptions words).map fun o => ⟨file, .contracts o⟩
  else if command = "options" then
    match words with
    | [] => .error (.missingFunction command)
    | function :: words => (readOutputOptions words).map fun o => ⟨file, .options function o⟩
  else if command = "call" then
    match words with
    | [] => .error (.missingFunction command)
    | function :: words => .ok ⟨file, .call function words⟩
  else if command = "typedefs" then
    (readOutputOptions words).map fun o => ⟨file, .types o⟩
  else .error (.unknownCommand command)

/-- Whether a word asks for a log. -/
def asksForLog (word : String) : Bool := word == "--verbose" || word == "-v"

/-- The request of the words behind the name of the program. A first word that asks for a log
changes no answer. -/
def ofWords (words : List String) : Except UsageError Request :=
  match (match words with
    | word :: rest => if asksForLog word then rest else words
    | [] => []) with
  | command :: file :: rest => ofCommand command file rest
  | _ => .error .tooFewWords

/-- The report on a request when its file has been read, or could not be. -/
def report (q : Request) (content : Except FileFault String) : Report :=
  match content with
  | .error fault => .ofResult [] (.error (.unreadable q.file fault))
  | .ok source =>
    match extract q.task.hoists .empty source with
    | .error e => .ofResult [] (.error (.source e))
    | .ok e => .ofResult e.warnings (q.task.answer q.file e)

end Request

/-- The report on words, where `read` tells what is in a file. -/
def run (read : String → Except FileFault String) (words : List String) : Report :=
  match Request.ofWords words with
  | .error e => .ofResult [] (.error (.usage e))
  | .ok q => q.report (read q.file)

end CallContract.Command
