import ApiReference.Proofs.Alias.FixedPoint
import ApiReference.Proofs.Alias.References
import ApiReference.Proofs.Diagnostic.Counts

/-!
# What an expansion reports

An expansion makes passes as long as there is something on the worklist and a further pass is
allowed, and what a pass leaves on the worklist are the aliases whose definitions it has substituted
into.  The loop that makes them is therefore an iteration (`settle_eq_passesFrom`), in which every
pass has its number and its own changes (`ChangedIn`).

The report counts these passes and the aliases they have changed, and all other aliases are as they
were before.  The aliases it names as cyclic come in the order of the table, and the log gets one
warning for each of them behind what was there (`accounts_expand`).
-/

set_option autoImplicit false

namespace ApiReference

/-- What is left of distinct names in their order stands at increasing positions. -/
theorem pairwise_idxOf_of_sublist {names others : List String} (distinct : others.Nodup)
    (inOrder : names.Sublist others) :
    (names.map fun name => others.idxOf name).Pairwise (· < ·) := by
  refine List.Pairwise.sublist (inOrder.map _) ?_
  rw [List.pairwise_iff_getElem]
  intro left right leftInside rightInside before
  rw [List.length_map] at leftInside rightInside
  rw [List.getElem_map, List.getElem_map, distinct.idxOf_getElem left leftInside,
    distinct.idxOf_getElem right rightInside]
  exact before

namespace AliasTable

variable {table : AliasTable} {worklist : List String} {key : String}

/-! ## One pass after the other -/

instance (scan : Scan) : Decidable scan.IsQuiet :=
  inferInstanceAs (Decidable (_ = false))

/-- The table and the worklist after a number of passes. -/
def passesFrom (table : AliasTable) (worklist : List String) (count : Nat) :
    AliasTable × List String :=
  (fun state => state.1.expandPass state.2)^[count] (table, worklist)

theorem passesFrom_succ (table : AliasTable) (worklist : List String) (count : Nat) :
    table.passesFrom worklist (count + 1) =
      (table.passesFrom worklist count).1.expandPass (table.passesFrom worklist count).2 :=
  Function.iterate_succ_apply' _ _ _

@[simp]
theorem passesFrom_nil (table : AliasTable) (count : Nat) :
    table.passesFrom [] count = (table, []) :=
  Function.iterate_fixed rfl count

/-- The passes end in the table and with the worklist that as many passes lead to as are allowed,
whether they are needed or not. -/
theorem settle_eq_passesFrom (table : AliasTable) (allowed : Nat) (worklist : List String) :
    (table.settle allowed worklist).table = (table.passesFrom worklist allowed).1 ∧
      (table.settle allowed worklist).unsettled = (table.passesFrom worklist allowed).2 := by
  induction table, allowed, worklist using worklist_induction with
  | done table allowed => rw [settle_nil, passesFrom_nil]; exact ⟨rfl, rfl⟩
  | stopped table key later => exact ⟨rfl, rfl⟩
  | pass table allowed key later ih => exact ih

/-- A pass is made if it is allowed and finds something on the worklist. -/
theorem lt_passes_settle_iff {allowed count : Nat} :
    count < (table.settle allowed worklist).passes ↔
      count < allowed ∧ (table.passesFrom worklist count).2 ≠ [] := by
  induction table, allowed, worklist using worklist_induction generalizing count with
  | done table allowed => simp
  | stopped table key later => simp [settle]
  | pass table allowed key later ih =>
    have passes : (table.settle (allowed + 1) (key :: later)).passes =
        ((table.expandPass (key :: later)).1.settle allowed
          (table.expandPass (key :: later)).2).passes + 1 := rfl
    rw [passes]
    cases count with
    | zero => simp [passesFrom]
    | succ count => rw [Nat.add_lt_add_iff_right, ih, Nat.add_lt_add_iff_right]; rfl

/-- What the passes have changed is what one of them has left on the worklist. -/
theorem mem_changed_settle_iff {allowed : Nat} :
    key ∈ (table.settle allowed worklist).changed ↔
      ∃ pass < (table.settle allowed worklist).passes,
        key ∈ (table.passesFrom worklist (pass + 1)).2 := by
  induction table, allowed, worklist using worklist_induction with
  | done table allowed => simp
  | stopped table key later => simp [settle]
  | pass table allowed first later ih =>
    have settled : table.settle (allowed + 1) (first :: later) =
        let further := (table.expandPass (first :: later)).1.settle allowed
          (table.expandPass (first :: later)).2
        { further with
          passes := further.passes + 1
          changed := (table.expandPass (first :: later)).2 ++ further.changed } := rfl
    rw [settled]
    dsimp only
    rw [List.mem_append, ih, Nat.exists_lt_succ_left]
    rfl

/-- What a pass leaves on the worklist are the aliases with a scan that substituted something. -/
theorem mem_expandPass_iff :
    key ∈ (table.expandPass worklist).2 ↔
      ∃ scan ∈ table.passScans worklist, scan.key = key ∧ ¬ scan.IsQuiet := by
  induction worklist generalizing table with
  | nil => simp [expandPass, passScans]
  | cons first later ih =>
    rw [expandPass_cons, passScans, List.exists_mem_cons_iff, ← ih]
    cases changed : (table.expandEntry first).2 with
    | false => simp [Scan.IsQuiet, changed]
    | true => simp [Scan.IsQuiet, changed, eq_comm]

/-- A pass leaves the aliases as they were into which it substituted nothing. -/
theorem find?_expandPass_of_unchanged (unchanged : key ∉ (table.expandPass worklist).2) :
    (table.expandPass worklist).1.find? key = table.find? key := by
  induction worklist generalizing table with
  | nil => rfl
  | cons first later ih =>
    rw [expandPass_cons] at unchanged ⊢
    cases changed : (table.expandEntry first).2 with
    | false =>
      simp only [changed, Bool.false_eq_true, if_false] at unchanged
      rw [ih unchanged, expandEntry_of_eq_false changed]
    | true =>
      simp only [changed, if_true, List.mem_cons, not_or] at unchanged
      rw [ih unchanged.2, find?_expandEntry_of_ne unchanged.1]

/-- The passes leave the aliases as they were that none of them has changed. -/
theorem find?_settle_of_unchanged {allowed : Nat}
    (unchanged : key ∉ (table.settle allowed worklist).changed) :
    (table.settle allowed worklist).table.find? key = table.find? key := by
  induction table, allowed, worklist using worklist_induction with
  | done table allowed => rw [settle_nil]
  | stopped table key later => rfl
  | pass table allowed first later ih =>
    obtain ⟨notNow, notLater⟩ := not_or.mp (mt List.mem_append.mpr unchanged)
    exact (ih notLater).trans (find?_expandPass_of_unchanged notNow)

/-! ## The passes of an expansion -/

/-- The table and the worklist of an expansion after a number of passes.  At first all aliases are
on the worklist. -/
def afterPasses (table : AliasTable) (count : Nat) : AliasTable × List String :=
  table.sort.passesFrom table.sort.keys count

/-- In the pass with this number, counted from zero, some scan substitutes into the definition of
the alias. -/
def ChangedIn (table : AliasTable) (pass : Nat) (key : String) : Prop :=
  ∃ scan ∈ (table.afterPasses pass).1.passScans (table.afterPasses pass).2,
    scan.key = key ∧ ¬ scan.IsQuiet

instance (table : AliasTable) (pass : Nat) (key : String) : Decidable (table.ChangedIn pass key) :=
  inferInstanceAs (Decidable (∃ scan ∈ _, _))

theorem changedIn_iff {pass : Nat} :
    table.ChangedIn pass key ↔ key ∈ (table.sort.passesFrom table.sort.keys (pass + 1)).2 := by
  rw [passesFrom_succ, mem_expandPass_iff]
  rfl

theorem size_sort (table : AliasTable) : table.sort.size = table.size :=
  table.entries_sort_perm.length_eq

/-- The aliases that are left unsettled are those that the last pass has changed which was
allowed. -/
theorem mem_unsettled_iff_changedIn {allowed : Nat} (atLeastOne : 0 < allowed) :
    key ∈ (table.sort.settle allowed table.sort.keys).unsettled ↔
      table.ChangedIn (allowed - 1) key := by
  rw [(settle_eq_passesFrom _ _ _).2, changedIn_iff, Nat.sub_add_cancel atLeastOne]

theorem settlement_eq (table : AliasTable) :
    table.settlement = table.sort.settle (max 1 table.size) table.sort.keys := by
  rw [settlement, size_sort]

theorem lt_passes_settlement_iff {pass : Nat} :
    pass < table.settlement.passes ↔
      pass < max 1 table.size ∧ (table.afterPasses pass).2 ≠ [] := by
  rw [settlement_eq]
  exact lt_passes_settle_iff

theorem mem_changed_settlement_iff :
    key ∈ table.settlement.changed ↔
      ∃ pass < table.settlement.passes, table.ChangedIn pass key := by
  rw [settlement_eq, mem_changed_settle_iff]
  simp only [changedIn_iff]

theorem mem_unsettled_settlement_iff :
    key ∈ table.settlement.unsettled ↔ table.ChangedIn (max 1 table.size - 1) key := by
  rw [settlement_eq]
  exact mem_unsettled_iff_changedIn (Nat.lt_of_lt_of_le Nat.zero_lt_one (Nat.le_max_left 1 _))

/-- No two aliases of a sorted table are equal in the order. -/
theorem pairwise_lt_of_sorted
    (sorted : table.entries.Pairwise fun left right => precedes left right = true) :
    table.entries.Pairwise fun left right =>
      left.name < right.name ∨ left.name = right.name ∧ left.key < right.key := by
  have distinct : table.entries.Pairwise fun left right => left.key ≠ right.key :=
    List.pairwise_map.mp table.keys_nodup
  refine List.Pairwise.imp ?_ (sorted.and distinct)
  rintro left right ⟨precedes, different⟩
  exact (precedes_iff.mp precedes).imp_right fun ⟨sameName, keyLe⟩ =>
    ⟨sameName, lt_of_le_of_ne keyLe different⟩

end AliasTable

/-! ## The report -/

/-- What an expansion makes of a table and of a log, and what its report says of that. -/
structure ExpandedTable.Accounts (result : ExpandedTable) (table : AliasTable)
    (log logAfter : DiagnosticLog) : Prop where
  declared : result.table.declared.Perm table.declared
  ordered : result.table.entries.Pairwise fun left right =>
    left.name < right.name ∨ left.name = right.name ∧ left.key < right.key
  found : ∀ entry ∈ result.table.entries, result.table.find? entry.key = some entry
  passes_le : result.report.passes ≤ max 1 table.size
  passes : ∀ pass, pass < result.report.passes ↔
    pass < max 1 table.size ∧ (table.afterPasses pass).2 ≠ []
  expanded : result.report.expanded = result.table.entries.countP fun entry =>
    ∃ pass < result.report.passes, table.ChangedIn pass entry.key
  kept : ∀ key, (∀ pass < result.report.passes, ¬ table.ChangedIn pass key) →
    result.table.find? key = table.find? key
  cycles_subset : result.report.cycles ⊆ result.table.keys
  cycles_increasing :
    (result.report.cycles.map fun key => result.table.keys.idxOf key).Pairwise (· < ·)
  warnings : logAfter.entries = log.entries ++ result.report.cycles.map fun key =>
    { code := .aliasCycle
      severity := .warning
      message := s!"typedef `{key}` is part of a cycle"
      notes := s!"definition left as `{Token.joinedText (result.table.definitionOf key)}`" ::
        if table.ChangedIn (max 1 table.size - 1) key then
          [s!"expansion did not settle after {result.report.passes} passes"]
        else [] }

namespace AliasTable

variable (table : AliasTable)

/-- The aliases that are reported stand in the table in the order in which they are. -/
theorem cycles_expand_sublist :
    table.expand.1.report.cycles.Sublist table.expand.1.table.keys := by
  rw [cycles_expand, table_expand]
  exact List.filter_sublist.map Alias.key

/-- An alias keeps its definition if no pass has substituted into it. -/
theorem find?_expand_of_unchanged {key : String}
    (unchanged : ∀ pass < table.settlement.passes, ¬ table.ChangedIn pass key) :
    table.expand.1.table.find? key = table.find? key := by
  have untouched : key ∉ table.settlement.changed := by
    intro member
    obtain ⟨pass, made, changedIn⟩ := mem_changed_settlement_iff.mp member
    exact unchanged pass made changedIn
  exact (find?_settle_of_unchanged untouched).trans (congrFun table.find?_sort key)

/-- The warning for a cyclic alias tells its definition, and the number of passes if the last one
allowed has still changed it. -/
theorem diagnostic_cycleFinding (entry : Alias) :
    (cycleFinding table.settlement entry).diagnostic =
      { code := .aliasCycle
        severity := .warning
        message := s!"typedef `{entry.key}` is part of a cycle"
        notes := s!"definition left as `{Token.joinedText entry.definition}`" ::
          if table.ChangedIn (max 1 table.size - 1) entry.key then
            [s!"expansion did not settle after {table.settlement.passes} passes"]
          else [] } := by
  rw [cycleFinding]
  by_cases changing : table.ChangedIn (max 1 table.size - 1) entry.key
  · rw [if_pos changing, if_pos (mem_unsettled_settlement_iff.mpr changing)]
    rfl
  · rw [if_neg changing, if_neg (mt mem_unsettled_settlement_iff.mp changing)]
    rfl

/-- An expansion changes nothing of a table but its order and definitions, and the report tells how:
it counts the passes, of which there are not more than aliases, and the aliases that some pass has
substituted into.  All others keep their definitions.  Behind what the log holds comes one warning
for each alias that is reported as cyclic, and these are reported in the order of the table. -/
theorem accounts_expand (log : DiagnosticLog) :
    table.expand.1.Accounts table log (log.record table.expand.2) := by
  constructor
  case declared =>
    rw [declared_expand]
    exact table.entries_sort_perm.map Alias.declared
  case ordered =>
    exact pairwise_lt_of_sorted (pairwise_of_declared (declared_expand table) table.pairwise_sort)
  case found => exact fun entry member => find?_key member
  case passes_le =>
    by_contra more
    exact lt_irrefl _ (lt_passes_settlement_iff.mp (not_le.mp more)).1
  case passes => exact fun pass => lt_passes_settlement_iff
  case expanded =>
    rw [expanded_expand]
    refine List.countP_congr fun entry _ => ?_
    rw [List.contains_iff_mem, decide_eq_true_iff, mem_changed_settlement_iff]
    rfl
  case kept => exact fun key unchanged => table.find?_expand_of_unchanged unchanged
  case cycles_subset => exact table.cycles_expand_sublist.subset
  case cycles_increasing =>
    exact pairwise_idxOf_of_sublist table.expand.1.table.keys_nodup table.cycles_expand_sublist
  case warnings =>
    have findings : table.expand.2 =
        (cyclicEntries table.settlement).map (cycleFinding table.settlement) := rfl
    rw [DiagnosticLog.entries_record, findings, cycles_expand, table_expand, List.map_map,
      List.map_map]
    congr 1
    refine List.map_congr_left fun entry cyclic => ?_
    rw [Function.comp_apply, Function.comp_apply, diagnostic_cycleFinding,
      definitionOf_key (List.mem_of_mem_filter cyclic)]
    rfl

end AliasTable

end ApiReference
