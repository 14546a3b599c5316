import ApiReference.Command.Line

/-!
# The program

The commands on the files of the computer: what they print goes to the standard output, what they
note to the standard error.
-/

namespace ApiReference

set_option autoImplicit false

/-- The number and the words of the operating system for an error, if it comes from there. -/
def systemError? : IO.Error → Option (UInt32 × String)
  | .noFileOrDirectory _ code details => some (code, details)
  | .inappropriateType _ code details => some (code, details)
  | .permissionDenied _ code details => some (code, details)
  | .invalidArgument _ code details => some (code, details)
  | .alreadyExists _ code details => some (code, details)
  | .resourceExhausted _ code details => some (code, details)
  | .resourceBusy code details => some (code, details)
  | .hardwareFault code details => some (code, details)
  | .otherError code details => some (code, details)
  | _ => none

/-- The error of a file as the commands know it. -/
def fileErrorOf (error : IO.Error) : FileError :=
  match systemError? error with
  | some (code, details) => .other s!"{details} (os error {code})"
  | none => .other (toString error)

/-- Do something to a file, and return the error if it cannot be done. -/
def attempt {α : Type} (action : IO α) : IO (Except FileError α) := do
  match ← action.toBaseIO with
  | .ok value => return .ok value
  | .error error => return .error (fileErrorOf error)

instance : Workspace IO where
  read path := attempt (IO.FS.readFile path)
  write path content := attempt (IO.FS.writeFile path content)
  print line := IO.println line
  note line := IO.eprintln line

end ApiReference

/-- Run the command that the arguments name. -/
def main (arguments : List String) : IO UInt32 := do
  ApiReference.CommandLine.run
    (← IO.getEnv ApiReference.CommandLine.tableVariable) arguments
