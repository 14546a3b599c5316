/-!
# Diagnostics

A diagnostic is a finding that does not stop a build: a code to search for, a severity, a message
and further notes.  Codes are a letter and four digits.  The letter `E` marks a failure to read or
to write, the letter `W` a warning; the first digit tells whether the finding is about an input file
(0), the alias table (1) or the class library (2).

A `DiagnosticLog` keeps diagnostics in the order of their arrival, and beside them how many were
errors and how many were warnings.  These two numbers are counted up by `push`, and nothing else
keeps them in step with the diagnostics; all other numbers are counts over the list.
-/

namespace ApiReference

set_option autoImplicit false

/-- What a diagnostic is about. -/
inductive DiagnosticCode where
  | unreadableDocumentSet
  | unreadableAliasTable
  | unwritableOutput
  | duplicateAlias
  | aliasCycle
  | duplicateClass
  | missingDescription
  | unmatchedComment
deriving DecidableEq, Repr, Inhabited

namespace DiagnosticCode

/-- All codes, in their order. -/
def all : List DiagnosticCode :=
  [unreadableDocumentSet, unreadableAliasTable, unwritableOutput, duplicateAlias, aliasCycle,
    duplicateClass, missingDescription, unmatchedComment]

/-- The code as it is written. -/
def text : DiagnosticCode → String
  | unreadableDocumentSet => "E0001"
  | unreadableAliasTable => "E0002"
  | unwritableOutput => "E0003"
  | duplicateAlias => "W1001"
  | aliasCycle => "W1002"
  | duplicateClass => "W2001"
  | missingDescription => "W2002"
  | unmatchedComment => "W2003"

/-- The short description of a code. -/
def description : DiagnosticCode → String
  | unreadableDocumentSet => "unreadable document set"
  | unreadableAliasTable => "unreadable typedef table"
  | unwritableOutput => "unwritable output"
  | duplicateAlias => "duplicate typedef"
  | aliasCycle => "typedef cycle"
  | duplicateClass => "duplicate class"
  | missingDescription => "missing description"
  | unmatchedComment => "unmatched source comment"

/-- The code stands for a warning. -/
def isWarning : DiagnosticCode → Bool
  | unreadableDocumentSet | unreadableAliasTable | unwritableOutput => false
  | _ => true

/-- The place of a code in the order. -/
def rank (code : DiagnosticCode) : Nat :=
  all.idxOf code

/-- Read a code; its letter may be of either case. -/
def ofText? (written : String) : Option DiagnosticCode :=
  all.find? fun code => code.text = String.ofList (written.toList.map Char.toUpper)

end DiagnosticCode

/-- How grave a diagnostic is. -/
inductive Severity where
  | error
  | warning
  | note
deriving DecidableEq, Repr, Inhabited

/-- The severity as it is written. -/
def Severity.text : Severity → String
  | error => "error"
  | warning => "warning"
  | note => "note"

/-- A finding that does not stop a build. -/
structure Diagnostic where
  code : DiagnosticCode
  severity : Severity
  message : String
  notes : List String
deriving DecidableEq, Repr, Inhabited

namespace Diagnostic

/-- The diagnostic is an error. -/
def isError (diagnostic : Diagnostic) : Bool :=
  diagnostic.severity = .error

/-- The diagnostic is a warning. -/
def isWarning (diagnostic : Diagnostic) : Bool :=
  diagnostic.severity = .warning

/-- The diagnostic as it is printed, with a line of its own for every note. -/
def render (diagnostic : Diagnostic) : String :=
  s!"{diagnostic.severity.text}[{diagnostic.code.text}]: {diagnostic.message}" ++
    String.join (diagnostic.notes.map fun note => "\n  = note: " ++ note)

end Diagnostic

/-- Diagnostics in the order of their arrival, with the errors and the warnings counted as they
come. -/
structure DiagnosticLog where
  entries : List Diagnostic
  errorCount : Nat
  warningCount : Nat
deriving DecidableEq, Repr, Inhabited

namespace DiagnosticLog

/-- The log with nothing in it. -/
def empty : DiagnosticLog := ⟨[], 0, 0⟩

/-- Count an error or a warning; notes are not counted. -/
def count (log : DiagnosticLog) : Severity → DiagnosticLog
  | .error => { log with errorCount := log.errorCount + 1 }
  | .warning => { log with warningCount := log.warningCount + 1 }
  | .note => log

/-- Record one more diagnostic. -/
def push (log : DiagnosticLog) (diagnostic : Diagnostic) : DiagnosticLog :=
  { log.count diagnostic.severity with entries := log.entries ++ [diagnostic] }

/-- How many diagnostics the log holds. -/
def size (log : DiagnosticLog) : Nat :=
  log.entries.length

/-- Some diagnostic is an error. -/
def hasErrors (log : DiagnosticLog) : Bool :=
  0 < log.errorCount

/-- How many diagnostics carry a code. -/
def countOf (log : DiagnosticLog) (code : DiagnosticCode) : Nat :=
  log.entries.countP (·.code = code)

/-- The codes that occur with their counts, in the order of the codes. -/
def summary (log : DiagnosticLog) : List (DiagnosticCode × Nat) :=
  (DiagnosticCode.all.map fun code => (code, log.countOf code)).filter fun line => 0 < line.2

/-- The summary as it is printed, if anything occurs. -/
def summaryLine? (log : DiagnosticLog) : Option String :=
  match log.summary with
  | [] => none
  | lines =>
    let parts := lines.map fun line => s!"{line.1.text} x{line.2}"
    some (s!"{log.warningCount} warning(s): " ++ ", ".intercalate parts)

@[simp]
theorem size_push (log : DiagnosticLog) (diagnostic : Diagnostic) :
    (log.push diagnostic).size = log.size + 1 := by
  simp [size, push]

end DiagnosticLog

end ApiReference
