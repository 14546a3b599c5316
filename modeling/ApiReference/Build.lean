import ApiReference.Alias.Record
import ApiReference.DocumentSet.Basic
import ApiReference.Library.Comment
import ApiReference.Published.Publish
import ApiReference.Report.Missing
import ApiReference.Source.Scan

/-!
# Building the documentation

A build goes through a document set once.  The aliases are expanded and the library is made of the
classes.  The types of the library are normalized, the comments are added, overloads lend each other
their descriptions, and the source of every class is scanned, all headers before all
implementations.  The source of a class that was refused as a duplicate is not scanned.  At the end
the library is ordered and published, and the report names what has no description.

Every phase returns its findings, and those of the build are these in the order of the phases.
-/

namespace ApiReference

set_option autoImplicit false

/-- What a build is given besides the document set. -/
structure BuildInput where
  /-- Further aliases, which come after those of the document set. -/
  table? : Option AliasRecords
  ignore? : Option IgnoreList
  /-- Leave out the report on missing descriptions. -/
  noReport : Bool
deriving DecidableEq, Repr, Inhabited

/-- What a build results in. -/
structure BuildOutput where
  published : PublishedLibrary
  aliases : ExpandedTable
  /-- The number of missing descriptions in the report. -/
  missing : Nat
  findings : List Finding
deriving DecidableEq, Repr, Inhabited

namespace BuildOutput

/-- The diagnostics of a build. -/
def log (output : BuildOutput) : DiagnosticLog :=
  .ofFindings output.findings

end BuildOutput

/-- The first classes of each name. -/
def firstOfEachName : List ListedClass → List ListedClass
  | [] => []
  | listed :: later =>
    listed :: (firstOfEachName later).filter (·.name ≠ listed.name)

namespace Library

/-- Add comments one after the other, and report those that belong nowhere. -/
def addComments (library : Library) (expanded : ExpandedTable) :
    List ListedComment → Library × List Finding
  | [] => (library, [])
  | comment :: later =>
    let (changed, outcome) :=
      library.addComment comment.className comment.method.toMethod expanded
    let (final, findings) := changed.addComments expanded later
    (final, (outcome.finding? comment.className comment.method.name).toList ++ findings)

/-- Scan the headers of classes. -/
def scanHeaders (library : Library) (classes : List ListedClass) : Library :=
  classes.foldl (fun library listed => (library.scanHeader listed.name listed.headerLines).1)
    library

/-- Scan the implementations of classes. -/
def scanSources (library : Library) (classes : List ListedClass) : Library :=
  classes.foldl
    (fun library listed => (library.scanSource listed.name listed.sourceLines).library) library

end Library

namespace DocumentSet

/-- The aliases of a document set and a table, expanded. -/
def expandAliases (documents : DocumentSet) (table? : Option AliasRecords) :
    ExpandedTable × List Finding :=
  let offered := documents.aliasEntries ++ (table?.map AliasRecords.aliases).getD []
  let (table, refusals) := AliasTable.empty.insertAll offered
  let (expanded, cycles) := table.expand
  (expanded, refusals ++ cycles)

/-- The library of a document set with all that comments and source lines tell. -/
def completeLibrary (documents : DocumentSet) (expanded : ExpandedTable) :
    Library × List Finding :=
  let (listed, duplicates) := documents.library
  let (commented, unmatched) :=
    (listed.normalize expanded).addComments expanded documents.comments
  let scanned := firstOfEachName documents.classes
  let complete := (commented.fillDescriptions.scanHeaders scanned).scanSources scanned
  (complete.pruneEvents.sort, duplicates ++ unmatched)

/-- Build the documentation of a document set. -/
def build (documents : DocumentSet) (input : BuildInput) : BuildOutput :=
  let (expanded, aliasFindings) := documents.expandAliases input.table?
  let (library, libraryFindings) := documents.completeLibrary expanded
  let published := library.publish
  let undocumented := if input.noReport then [] else published.undocumented input.ignore?
  { published
    aliases := expanded
    missing := undocumented.length
    findings :=
      aliasFindings ++ libraryFindings ++ undocumented.map Finding.missingDescription }

end DocumentSet

end ApiReference
