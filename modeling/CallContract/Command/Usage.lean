/-!
# Usage

How the program is called, and in which ways a call of it can be wrong.
-/

namespace CallContract.Command

/-- What is wrong with the words of a call. -/
inductive UsageError where
  | tooFewWords
  | missingFunction (command : String)
  | unknownCommand (command : String)
  | unknownOption (spelling : String)
  | unexpectedWord (word : String)
  | notBoolean (option raw : String)
  | missingValue (option : String)
deriving DecidableEq, Repr

/-- The wording of a usage error. -/
def UsageError.message : UsageError → String
  | tooFewWords => "not enough arguments"
  | missingFunction command => command ++ " requires a function name"
  | unknownCommand command => "unknown command '" ++ command ++ "'"
  | unknownOption spelling => "unknown option '" ++ spelling ++ "'"
  | unexpectedWord word => "unexpected argument '" ++ word ++ "'"
  | notBoolean option raw =>
    "option '--" ++ option ++ "' expects true or false, got '" ++ raw ++ "'"
  | missingValue option => "missing value for '--" ++ option ++ "'"

/-- How the program is called, line by line. -/
def usageLines : List String :=
  ["usage:",
    "  funar [--verbose] contracts <file> [--pretty] [--hoist-typedefs]",
    "  funar [--verbose] options <file> <function> [--pretty] [--hoist-typedefs]",
    "  funar [--verbose] call <file> <function> [--option value | --flag]...",
    "  funar [--verbose] typedefs <file> [--pretty] [--hoist-typedefs]",
    "",
    "options:",
    "  --pretty           indent JSON output",
    "  --hoist-typedefs   register every typedef of the file before reading functions",
    "  --verbose, -v      log extraction steps to stderr"]

end CallContract.Command
