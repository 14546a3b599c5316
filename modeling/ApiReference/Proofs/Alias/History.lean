import ApiReference.Proofs.Alias.Passes

/-!
# The scans of the passes

`scans` lists what the passes over a worklist have done, scan by scan.  A scan that changes nothing
takes its alias off the worklist for good.  If the passes come to an end, every alias of the
worklist has therefore had such a scan (`exists_quiet_scan`), and since that scan its definition has
not changed (`find?_settle_of_quiet`), although other definitions may have.
-/

set_option autoImplicit false

namespace ApiReference

namespace AliasTable

/-- The scan of one definition. -/
structure Scan where
  /-- The table as it was before the scan. -/
  before : AliasTable
  /-- The key of the alias whose definition was scanned. -/
  key : String

/-- The scan substituted nothing. -/
def Scan.IsQuiet (scan : Scan) : Prop :=
  (scan.before.expandEntry scan.key).2 = false

/-- The scans of a pass. -/
def passScans (table : AliasTable) : List String → List Scan
  | [] => []
  | key :: later => ⟨table, key⟩ :: (table.expandEntry key).1.passScans later

/-- The scans of all passes. -/
def scans (table : AliasTable) : (allowed : Nat) → (worklist : List String) → List Scan
  | _, [] => []
  | 0, _ :: _ => []
  | allowed + 1, key :: later =>
    table.passScans (key :: later) ++
      (table.expandPass (key :: later)).1.scans allowed (table.expandPass (key :: later)).2

/-- The scans of an expansion. -/
def expansionScans (table : AliasTable) : List Scan :=
  table.sort.scans (max 1 table.sort.size) table.sort.keys

variable {table : AliasTable} {worklist : List String} {key : String} {scan : Scan}

/-! ## One pass -/

theorem key_mem_of_mem_passScans (member : scan ∈ table.passScans worklist) :
    scan.key ∈ worklist := by
  induction worklist generalizing table with
  | nil => cases member
  | cons first later ih =>
    rcases List.mem_cons.mp member with rfl | memberLater
    · exact List.mem_cons_self
    · exact List.mem_cons_of_mem _ (ih memberLater)

theorem declared_of_mem_passScans (member : scan ∈ table.passScans worklist) :
    scan.before.declared = table.declared := by
  induction worklist generalizing table with
  | nil => cases member
  | cons first later ih =>
    rcases List.mem_cons.mp member with rfl | memberLater
    · rfl
    · exact (ih memberLater).trans (declared_expandEntry table first)

/-- What a pass has not changed had a quiet scan. -/
theorem exists_quiet_passScan (member : key ∈ worklist)
    (unchanged : key ∉ (table.expandPass worklist).2) :
    ∃ scan ∈ table.passScans worklist, scan.key = key ∧ scan.IsQuiet := by
  induction worklist generalizing table with
  | nil => cases member
  | cons first later ih =>
    rw [expandPass_cons] at unchanged
    cases changed : (table.expandEntry first).2 with
    | false =>
      simp only [changed, Bool.false_eq_true, if_false] at unchanged
      rcases List.mem_cons.mp member with rfl | memberLater
      · exact ⟨⟨table, key⟩, List.mem_cons_self, rfl, changed⟩
      · obtain ⟨scan, isScan, sameKey, quiet⟩ := ih memberLater unchanged
        exact ⟨scan, List.mem_cons_of_mem _ isScan, sameKey, quiet⟩
    | true =>
      simp only [changed, if_true, List.mem_cons, not_or] at unchanged
      have memberLater := (List.mem_cons.mp member).resolve_left unchanged.1
      obtain ⟨scan, isScan, sameKey, quiet⟩ := ih memberLater unchanged.2
      exact ⟨scan, List.mem_cons_of_mem _ isScan, sameKey, quiet⟩

/-- A quiet scan keeps its alias out of what the pass has changed. -/
theorem notMem_expandPass_of_quiet (distinct : worklist.Nodup)
    (member : scan ∈ table.passScans worklist) (quiet : scan.IsQuiet) :
    scan.key ∉ (table.expandPass worklist).2 := by
  induction worklist generalizing table with
  | nil => cases member
  | cons first later ih =>
    obtain ⟨fresh, distinctLater⟩ := List.nodup_cons.mp distinct
    rw [expandPass_cons]
    rcases List.mem_cons.mp member with rfl | memberLater
    · have unchanged : (table.expandEntry first).2 = false := quiet
      simp only [unchanged, Bool.false_eq_true, if_false]
      exact fun changed => fresh ((expandPass_sublist _ later).subset changed)
    · have different : scan.key ≠ first :=
        ne_of_mem_of_not_mem (key_mem_of_mem_passScans memberLater) fresh
      have unchanged := ih distinctLater memberLater
      dsimp only
      split
      · simp [different, unchanged]
      · exact unchanged

/-- An alias is as its quiet scan has found it when the pass is over. -/
theorem find?_expandPass_of_quiet (distinct : worklist.Nodup)
    (member : scan ∈ table.passScans worklist) (quiet : scan.IsQuiet) :
    (table.expandPass worklist).1.find? scan.key = scan.before.find? scan.key := by
  induction worklist generalizing table with
  | nil => cases member
  | cons first later ih =>
    obtain ⟨fresh, distinctLater⟩ := List.nodup_cons.mp distinct
    rw [expandPass_cons]
    rcases List.mem_cons.mp member with rfl | memberLater
    · rw [find?_expandPass_of_notMem fresh, expandEntry_of_eq_false quiet]
    · exact ih distinctLater memberLater

/-! ## All passes -/

@[simp]
theorem scans_nil (table : AliasTable) (allowed : Nat) : table.scans allowed [] = [] := by
  cases allowed <;> rfl

theorem declared_of_mem_scans {allowed : Nat} (member : scan ∈ table.scans allowed worklist) :
    scan.before.declared = table.declared := by
  induction table, allowed, worklist using worklist_induction with
  | done => simp at member
  | stopped => cases member
  | pass table allowed first later ih =>
    rcases List.mem_append.mp member with now | afterwards
    · exact declared_of_mem_passScans now
    · exact (ih afterwards).trans (declared_expandPass table (first :: later))

/-- If the passes come to an end, every alias on the worklist has had a quiet scan. -/
theorem exists_quiet_scan {allowed : Nat} (ended : (table.settle allowed worklist).unsettled = [])
    (member : key ∈ worklist) :
    ∃ scan ∈ table.scans allowed worklist, scan.key = key ∧ scan.IsQuiet := by
  induction table, allowed, worklist using worklist_induction with
  | done => cases member
  | stopped => cases ended
  | pass table allowed first later ih =>
    by_cases changed : key ∈ (table.expandPass (first :: later)).2
    · obtain ⟨scan, isScan, sameKey, quiet⟩ := ih ended changed
      exact ⟨scan, List.mem_append_right _ isScan, sameKey, quiet⟩
    · obtain ⟨scan, isScan, sameKey, quiet⟩ := exists_quiet_passScan member changed
      exact ⟨scan, List.mem_append_left _ isScan, sameKey, quiet⟩

/-- An alias is as its quiet scan has found it when the passes are over. -/
theorem find?_settle_of_quiet {allowed : Nat} (distinct : worklist.Nodup)
    (member : scan ∈ table.scans allowed worklist) (quiet : scan.IsQuiet) :
    (table.settle allowed worklist).table.find? scan.key = scan.before.find? scan.key := by
  induction table, allowed, worklist using worklist_induction with
  | done => simp at member
  | stopped => cases member
  | pass table allowed first later ih =>
    rcases List.mem_append.mp member with now | afterwards
    · -- The alias is not on the worklist of the next pass, so that no later one touches it.
      have kept := find?_expandPass_of_quiet distinct now quiet
      have unchanged := notMem_expandPass_of_quiet distinct now quiet
      exact (find?_settle_of_notMem allowed unchanged).trans kept
    · have distinctChanged := distinct.sublist (expandPass_sublist table (first :: later))
      exact ih distinctChanged afterwards

end AliasTable

end ApiReference
