import ApiReference.Diagnostic.Finding
import Mathlib.Algebra.BigOperators.Group.List.Basic
import Mathlib.Algebra.GroupWithZero.Nat

/-!
# Counting diagnostics

A log counts errors and warnings as they are pushed.  Pushing keeps the two numbers equal to what
one would count in the list (`Counted.push`), and so they are in every log that is made by pushing
(`counted_record`).

Every diagnostic has one code, so the counts of a summary add up to the size of the log
(`sum_summary`).  The diagnostics of a list of findings are all warnings, and those of a code are as
many as the findings of the code (`countOf_ofFindings`).  A phase of a build whose findings are all
of one code adds to the count of that code alone (`countP_code`).
-/

set_option autoImplicit false

namespace ApiReference

theorem DiagnosticCode.sum_indicator (code : DiagnosticCode) :
    (all.map fun other => if code = other then 1 else 0).sum = 1 := by
  cases code <;> rfl

namespace DiagnosticLog

/-- Leaving out the codes that do not occur does not change the sum of the counts. -/
theorem sum_filter_pos (lines : List (DiagnosticCode × Nat)) :
    ((lines.filter fun line => 0 < line.2).map Prod.snd).sum = (lines.map Prod.snd).sum := by
  induction lines with
  | nil => rfl
  | cons line later ih =>
    obtain ⟨code, count⟩ := line
    cases count with
    | zero => simpa using ih
    | succ count => simpa using ih

theorem sum_countOf (log : DiagnosticLog) : (DiagnosticCode.all.map log.countOf).sum = log.size := by
  unfold countOf size
  induction log.entries with
  | nil => rfl
  | cons diagnostic later ih =>
    simp only [List.countP_cons, decide_eq_true_eq]
    rw [List.sum_map_add, ih, DiagnosticCode.sum_indicator]
    rfl

/-- The counts of a summary add up to all diagnostics. -/
theorem sum_summary (log : DiagnosticLog) : (log.summary.map Prod.snd).sum = log.size := by
  rw [summary, sum_filter_pos, List.map_map]
  exact log.sum_countOf

/-! ## The numbers that are kept -/

/-- The two numbers that a log keeps are those of its errors and its warnings. -/
structure Counted (log : DiagnosticLog) : Prop where
  errors : log.errorCount = log.entries.countP Diagnostic.isError
  warnings : log.warningCount = log.entries.countP Diagnostic.isWarning

variable {log : DiagnosticLog} {findings : List Finding} {code other : DiagnosticCode}

theorem counted_empty : empty.Counted :=
  ⟨rfl, rfl⟩

theorem Counted.push (counted : log.Counted) (diagnostic : Diagnostic) :
    (log.push diagnostic).Counted := by
  obtain ⟨code, severity, message, notes⟩ := diagnostic
  constructor
  case errors =>
    rw [DiagnosticLog.push, List.countP_append, ← counted.errors]
    cases severity <;> rfl
  case warnings =>
    rw [DiagnosticLog.push, List.countP_append, ← counted.warnings]
    cases severity <;> rfl

/-- However many diagnostics are pushed, the numbers stay right. -/
theorem Counted.foldl_push (counted : log.Counted) (diagnostics : List Diagnostic) :
    (diagnostics.foldl DiagnosticLog.push log).Counted :=
  List.foldlRecOn (motive := Counted) diagnostics _ counted
    fun _ before diagnostic _ => before.push diagnostic

/-! ## The log of some findings -/

theorem record_eq_foldl (log : DiagnosticLog) (findings : List Finding) :
    log.record findings = (findings.map Finding.diagnostic).foldl push log :=
  List.foldl_map.symm

theorem entries_foldl_push (log : DiagnosticLog) (diagnostics : List Diagnostic) :
    (diagnostics.foldl push log).entries = log.entries ++ diagnostics := by
  induction diagnostics generalizing log with
  | nil => exact (List.append_nil _).symm
  | cons first later ih =>
    rw [List.foldl_cons, ih, push, List.append_assoc]
    rfl

theorem entries_record (log : DiagnosticLog) (findings : List Finding) :
    (log.record findings).entries = log.entries ++ findings.map Finding.diagnostic := by
  rw [record_eq_foldl, entries_foldl_push]

theorem counted_ofFindings (findings : List Finding) : (ofFindings findings).Counted := by
  rw [ofFindings, record_eq_foldl]
  exact counted_empty.foldl_push _

theorem entries_ofFindings (findings : List Finding) :
    (ofFindings findings).entries = findings.map Finding.diagnostic :=
  empty.entries_record findings

theorem countOf_ofFindings (findings : List Finding) (code : DiagnosticCode) :
    (ofFindings findings).countOf code = findings.countP (·.code = code) := by
  rw [countOf, entries_ofFindings, List.countP_map]
  rfl

theorem errorCount_ofFindings (findings : List Finding) : (ofFindings findings).errorCount = 0 := by
  rw [(counted_ofFindings findings).errors, entries_ofFindings]
  refine List.countP_eq_zero.mpr fun diagnostic member => ?_
  obtain ⟨finding, -, rfl⟩ := List.mem_map.mp member
  exact Bool.false_ne_true

theorem warningCount_ofFindings (findings : List Finding) :
    (ofFindings findings).warningCount = (ofFindings findings).size := by
  rw [(counted_ofFindings findings).warnings, size, entries_ofFindings]
  refine List.countP_eq_length.mpr fun diagnostic member => ?_
  obtain ⟨finding, -, rfl⟩ := List.mem_map.mp member
  exact finding.isWarning_diagnostic

/-- Findings that are all of one code count for that code and for no other. -/
theorem countP_code (all : ∀ finding ∈ findings, finding.code = code) :
    findings.countP (·.code = other) = if code = other then findings.length else 0 := by
  split
  · rename_i same
    exact List.countP_eq_length.mpr fun finding member =>
      decide_eq_true ((all finding member).trans same)
  · rename_i different
    refine List.countP_eq_zero.mpr fun finding member counted => different ?_
    exact (all finding member).symm.trans (of_decide_eq_true counted)

end DiagnosticLog

end ApiReference
