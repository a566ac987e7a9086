/-!
# Source files

What can keep a source file from being read as text.
-/

namespace CallContract.Command

-- Powers of numbers are the built-in ones, whatever else is imported.
attribute [local instance (high)] instPowNat

/-- Why a file cannot be read: the fault that the system reports, with its wording and its
number, or bytes that are no UTF-8. -/
inductive FileFault where
  | system (wording : String) (number : Nat)
  | notText
deriving DecidableEq, Repr

namespace FileFault

/-- The wording of a fault. -/
def message : FileFault → String
  | system wording number => wording ++ " (os error " ++ toString number ++ ")"
  | notText => "stream did not contain valid UTF-8"

/-- The usual wordings of faults by their numbers. -/
def wordings : List (Nat × String) :=
  [(1, "Operation not permitted"), (2, "No such file or directory"), (5, "Input/output error"),
    (12, "Cannot allocate memory"), (13, "Permission denied"), (20, "Not a directory"),
    (21, "Is a directory"), (23, "Too many open files in system"), (24, "Too many open files"),
    (36, "File name too long"), (40, "Too many levels of symbolic links")]

/-- The fault with a number, which is reported negated or not; `wording` serves a number
without a usual wording. -/
def ofNumber (code : UInt32) (wording : String) : FileFault :=
  let number := if code.toNat < 2 ^ (31 : Nat) then code.toNat else 2 ^ (32 : Nat) - code.toNat
  .system ((wordings.lookup number).getD wording) number

end FileFault

/-- The text of a file. -/
def textOf (bytes : ByteArray) : Except FileFault String :=
  match String.fromUTF8? bytes with
  | some s => .ok s
  | none => .error .notText

end CallContract.Command
