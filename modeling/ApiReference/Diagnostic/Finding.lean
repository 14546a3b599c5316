import ApiReference.Diagnostic.Basic

/-!
# Findings

A finding is the cause of a diagnostic.  The phases of a build return findings and know nothing of
codes and wording; `Finding.diagnostic` is the one place where these are chosen.  All findings are
warnings, so a build that gets as far as its phases never reports an error.
-/

namespace ApiReference

set_option autoImplicit false

/-- An item of the published library that has no description. -/
inductive UndocumentedItem where
  | classPage (name : String)
  | method (className name : String)
  | property (className name : String)
deriving DecidableEq, Repr, Inhabited

namespace UndocumentedItem

/-- The class the item is, or belongs to. -/
def className : UndocumentedItem → String
  | classPage name => name
  | method name _ => name
  | property name _ => name

/-- The name of the item inside its class; the class itself has none. -/
def memberName : UndocumentedItem → String
  | classPage _ => ""
  | method _ name => name
  | property _ name => name

/-- The line that reports the item. -/
def message : UndocumentedItem → String
  | classPage name => s!"Class '{name}' missing description"
  | method className name => s!"Method '{className}.{name}' missing description"
  | property className name => s!"Property '{className}.{name}' missing description"

end UndocumentedItem

/-- What a phase of a build has to say. -/
inductive Finding where
  /-- A second alias with a key that is taken; the definitions are given as text. -/
  | duplicateAlias (key kept ignored : String)
  /-- An alias that does not expand to an end, the definition it was left with, and the number of
  passes after which it was still changing. -/
  | aliasCycle (key definition : String) (unsettledAfter? : Option Nat)
  /-- A second class with a name that is taken. -/
  | duplicateClass (name : String)
  | missingDescription (item : UndocumentedItem)
  /-- A comment on a class, none of whose methods it matches. -/
  | unmatchedComment (className method : String)
  /-- A comment on a class that is not in the library. -/
  | commentOnUnknownClass (className method : String)
deriving DecidableEq, Repr, Inhabited

namespace Finding

/-- The code of a finding. -/
def code : Finding → DiagnosticCode
  | duplicateAlias .. => .duplicateAlias
  | aliasCycle .. => .aliasCycle
  | duplicateClass _ => .duplicateClass
  | missingDescription _ => .missingDescription
  | unmatchedComment .. => .unmatchedComment
  | commentOnUnknownClass .. => .unmatchedComment

/-- The message of a finding. -/
def message : Finding → String
  | duplicateAlias key _ _ => s!"duplicate typedef `{key}`"
  | aliasCycle key _ _ => s!"typedef `{key}` is part of a cycle"
  | duplicateClass name => s!"duplicate class `{name}`"
  | missingDescription item => item.message
  | unmatchedComment className method =>
    s!"no method of `{className}` matches comment for `{method}`"
  | commentOnUnknownClass className method =>
    s!"comment for `{method}` names unknown class `{className}`"

/-- The notes of a finding. -/
def notes : Finding → List String
  | duplicateAlias _ kept ignored =>
    [s!"kept definition `{kept}`", s!"ignored definition `{ignored}`"]
  | aliasCycle _ definition unsettledAfter? =>
    s!"definition left as `{definition}`" ::
      (unsettledAfter?.map fun passes => s!"expansion did not settle after {passes} passes").toList
  | duplicateClass _ => ["the first declaration is kept"]
  | missingDescription _ | unmatchedComment .. | commentOnUnknownClass .. => []

/-- The diagnostic of a finding. -/
def diagnostic (finding : Finding) : Diagnostic :=
  ⟨finding.code, .warning, finding.message, finding.notes⟩

theorem isWarning_diagnostic (finding : Finding) : finding.diagnostic.isWarning = true := rfl

end Finding

namespace DiagnosticLog

/-- The log with the diagnostics of some findings behind its own. -/
def record (log : DiagnosticLog) (findings : List Finding) : DiagnosticLog :=
  findings.foldl (fun log finding => log.push finding.diagnostic) log

/-- The log of a list of findings. -/
def ofFindings (findings : List Finding) : DiagnosticLog :=
  empty.record findings

end DiagnosticLog

end ApiReference
