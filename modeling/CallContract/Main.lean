import CallContract.Command.Run

/-!
# The command line

Reads the file that a call names, prints the report, and exits with its code.
-/

namespace CallContract.Command

/-- The fault that an error of the system is reported as. -/
def faultOf : IO.Error → FileFault
  | .noFileOrDirectory _ code wording => .ofNumber code wording
  | .permissionDenied _ code wording => .ofNumber code wording
  | .resourceExhausted _ code wording => .ofNumber code wording
  | .inappropriateType _ code wording => .ofNumber code wording
  | .invalidArgument _ code wording => .ofNumber code wording
  | .interrupted _ code wording => .ofNumber code wording
  | .resourceBusy code wording => .ofNumber code wording
  | .hardwareFault code wording => .ofNumber code wording
  | .otherError code wording => .ofNumber code wording
  | e => .system (toString e) 5

/-- Reads a file as text. -/
def readFile (path : String) : IO (Except FileFault String) := do
  try return textOf (← IO.FS.readBinFile ⟨path⟩)
  catch e => return .error (faultOf e)

/-- Answers the words of a call. -/
def answerWords (words : List String) : IO Report :=
  match Request.ofWords words with
  | .error e => return .ofResult [] (.error (.usage e))
  | .ok q => return q.report (← readFile q.file)

end CallContract.Command

open CallContract.Command in
/-- Runs the program. -/
def main (words : List String) : IO UInt32 := do
  let r ← answerWords words
  IO.print (Report.text r.output)
  IO.eprint (Report.text r.errors)
  return r.code.toUInt32
