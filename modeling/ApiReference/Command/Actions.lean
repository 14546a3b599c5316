import ApiReference.Build
import ApiReference.Command.Files
import ApiReference.Command.Options
import ApiReference.DocumentSet.Json
import ApiReference.Published.Json

/-!
# Commands

The commands of the program over any workspace: to build the documentation, to print the expanded
table of aliases, and to show one type.  All of them load their inputs first and then note the
diagnostics, so nothing is noted when an input cannot be loaded.
-/

namespace ApiReference

set_option autoImplicit false

variable {m : Type → Type} [Monad m] [Workspace m]

/-- An action that may fail. -/
abbrev CommandM (m : Type → Type) := ExceptT CommandFailure m

/-! ## Loading and noting -/

/-- Go on with a result, or fail for its error. -/
def orFail {ε α : Type} (failure : ε → CommandFailure) (result : Except ε α) : CommandM m α :=
  match result with
  | .ok value => pure value
  | .error error => throw (failure error)

/-- Load a document set. -/
def loadDocumentSet (path : String) : CommandM m DocumentSet := do
  let text ← orFail (.unreadable path) (← liftM (Workspace.read (m := m) path))
  orFail (.documentSet path) (DocumentSet.ofText text)

/-- Load an ignore list. -/
def loadIgnoreList (path : String) : CommandM m IgnoreList := do
  let text ← orFail (.unreadable path) (← liftM (Workspace.read (m := m) path))
  orFail (.ignoreList path) (IgnoreList.ofText text)

/-- Load a table of aliases. -/
def loadTable (path : String) : CommandM m AliasRecords := do
  let text ← orFail (.unreadableTable path) (← liftM (Workspace.read (m := m) path))
  orFail .table (AliasRecords.ofText text)

/-- Do something with a path, if there is one. -/
def withPath {α : Type} (load : String → CommandM m α) : Option String → CommandM m (Option α)
  | none => pure none
  | some path => do return some (← load path)

/-- Note the diagnostics of a log one by one, and their summary. -/
def noteLog (log : DiagnosticLog) : CommandM m Unit :=
  liftM do
    (log.entries.map Diagnostic.render).forM (Workspace.note (m := m))
    log.summaryLine?.toList.forM (Workspace.note (m := m))

/-! ## Building -/

/-- The numbers told after a build. -/
structure BuildSummary where
  classes : Nat
  events : Nat
  aliases : Nat
  missing : Nat
  warnings : Nat
deriving DecidableEq, Repr, Inhabited

namespace BuildSummary

/-- The numbers of a build. -/
def ofOutput (output : BuildOutput) : BuildSummary where
  classes := output.published.classes.length
  events := output.published.events.length
  aliases := output.aliases.table.size
  missing := output.missing
  warnings := output.log.warningCount

/-- The numbers in one line. -/
def line (summary : BuildSummary) : String :=
  s!"{summary.classes} classes, {summary.events} events, {summary.aliases} typedefs, " ++
    s!"{summary.missing} missing descriptions, {summary.warnings} warnings"

end BuildSummary

/-- Build the documentation of the document set at a path.  The library is returned as text, unless
the options name a file for it. -/
def buildDocumentation (input : String) (options : BuildOptions) :
    CommandM m (BuildSummary × Option String) := do
  let documents ← loadDocumentSet input
  let table? ← withPath loadTable options.table?
  let ignore? ← withPath loadIgnoreList options.ignore?
  let output := documents.build ⟨table?, ignore?, options.noReport⟩
  noteLog output.log
  if let some path := options.emittedTable? then
    let text := (AliasRecords.ofTable output.aliases.table).render
    orFail (.unwritableTable path) (← liftM (Workspace.write (m := m) path text))
  let summary := BuildSummary.ofOutput output
  let text := output.published.render
  match options.output? with
  | some path =>
    orFail (.unwritable path) (← liftM (Workspace.write (m := m) path text))
    return (summary, none)
  | none => return (summary, some text)

/-! ## Aliases and types -/

/-- The text of the expanded aliases of the document set at a path and of a table. -/
def expandedTableText (input : String) (tablePath? : Option String) : CommandM m String := do
  let documents ← loadDocumentSet input
  let table? ← withPath loadTable tablePath?
  let (expanded, findings) := documents.expandAliases table?
  noteLog (.ofFindings findings)
  return (AliasRecords.ofTable expanded.table).render

/-- The aliases of a table, expanded; none if there is no table. -/
def expandedAliases (table? : Option AliasRecords) : ExpandedTable × List Finding :=
  match table? with
  | none => (.empty, [])
  | some stored =>
    let (table, refusals) := stored.toTable
    let (expanded, cycles) := table.expand
    (expanded, refusals ++ cycles)

/-- The text shown for a type that is used in a scope, given as text, when the aliases of a table are
known. -/
def shownType (type : String) (tablePath? : Option String) (scope? : Option String) :
    CommandM m String := do
  let table? ← withPath loadTable tablePath?
  let (expanded, findings) := expandedAliases table?
  noteLog (.ofFindings findings)
  let scope := (scope?.map Scope.ofText).getD .outermost
  return displayText (expanded.normalized scope (tokenize type))

end ApiReference
