import ApiReference.Diagnostic.Basic
import ApiReference.Json.Reader

/-!
# Failures of commands

A command fails only when an input cannot be read or an output cannot be written.  A failure is
told in one line, which opens with its code; if a text could not be understood, the reason stands at
the end of the line, behind the part that `headline` gives.
-/

namespace ApiReference

set_option autoImplicit false

/-- Why a file cannot be read or written. -/
inductive FileError where
  | notFound
  | notDirectory
  | isDirectory
  | other (description : String)
deriving DecidableEq, Repr, Inhabited

/-- The error as the operating system tells it. -/
def FileError.message : FileError → String
  | notFound => "No such file or directory (os error 2)"
  | notDirectory => "Not a directory (os error 20)"
  | isDirectory => "Is a directory (os error 21)"
  | other description => description

/-- Why a command fails. -/
inductive CommandFailure where
  | unreadable (path : String) (error : FileError)
  | documentSet (path : String) (failure : JsonFailure)
  | ignoreList (path : String) (failure : JsonFailure)
  | unreadableTable (path : String) (error : FileError)
  | table (failure : JsonFailure)
  | unwritableTable (path : String) (error : FileError)
  | unwritable (path : String) (error : FileError)
deriving DecidableEq, Repr, Inhabited

namespace CommandFailure

/-- The code of a failure. -/
def code : CommandFailure → DiagnosticCode
  | unreadable .. | documentSet .. | ignoreList .. => .unreadableDocumentSet
  | unreadableTable .. | table _ => .unreadableAliasTable
  | unwritableTable .. | unwritable .. => .unwritableOutput

/-- The failure without the reason why a text could not be understood. -/
def headline : CommandFailure → String
  | unreadable path error => s!"cannot read `{path}`: {error.message}"
  | documentSet path _ => s!"cannot parse document set `{path}`:"
  | ignoreList path _ => s!"cannot parse ignore list `{path}`:"
  | unreadableTable path error => s!"cannot read typedef table `{path}`: {error.message}"
  | table _ => "malformed typedef table:"
  | unwritableTable path error => s!"cannot write typedef table `{path}`: {error.message}"
  | unwritable path error => s!"cannot write `{path}`: {error.message}"

/-- Why a text could not be understood, if that is the failure. -/
def reason? : CommandFailure → Option String
  | documentSet _ failure | ignoreList _ failure | table failure => some failure.message
  | _ => none

/-- The failure with its reason. -/
def message (failure : CommandFailure) : String :=
  failure.headline ++ ((failure.reason?.map fun reason => " " ++ reason).getD "")

/-- The line that tells of a failure in the given words. -/
def line (failure : CommandFailure) (words : String) : String :=
  s!"error[{failure.code.text}]: {words}"

end CommandFailure

end ApiReference
