import ApiReference.Proofs.Alias.History
import ApiReference.Proofs.Alias.Order

/-!
# When expansion has reached a fixed point

A table is closed if no token of any definition hits.  Expanding the result of an expansion again
changes nothing exactly if that result is closed (`isClosed_expand_iff`).

An expansion without cycles need not end in a closed table.  A scan that changes nothing takes its
alias off the worklist, also where a token was held back because of the definition that another
alias had at that time.  If that definition is rewritten afterwards the guard may be lifted, and
nothing looks at the token again.  The result is closed exactly if no guard is lifted in this way
(`isClosed_iff_of_ended`).
-/

set_option autoImplicit false

namespace ApiReference

namespace AliasTable

/-- No token of a definition hits, as seen from the scope of its alias. -/
def IsClosed (table : AliasTable) : Prop :=
  ∀ entry ∈ table.entries, table.Quiet entry.key entry.scope entry.definition

/-- At some token the scan was held back by the definition that an alias had then; in the final
table the alias has another definition and nothing holds it back. -/
inductive Scan.LosesGuard (scan : Scan) (final : AliasTable) : Prop where
  | lifted (position : Nat) {entry target redefined : Alias} {guard : Guard}
      (scanned : scan.before.find? scan.key = some entry)
      (held : scan.before.lookup entry.definition position entry.scope (some scan.key) =
        .guarded target guard)
      (byDefinition : guard ≠ .ownKey)
      (found : final.find? target.key = some redefined)
      (rewritten : redefined.definition ≠ target.definition)
      (free : guard? entry.definition position (some scan.key) redefined = none)

variable {table : AliasTable}

/-! ## Closed tables -/

theorem expandEntry_of_isClosed (closed : table.IsClosed) (key : String) :
    table.expandEntry key = (table, false) := by
  cases found : table.find? key with
  | none => exact expandEntry_of_find?_eq_none found
  | some entry =>
    obtain ⟨member, rfl⟩ := find?_some found
    have quiet := (expandEntry_eq_false_iff member).mpr (closed entry member)
    exact Prod.ext (expandEntry_of_eq_false quiet) quiet

theorem expandPass_of_isClosed (closed : table.IsClosed) (worklist : List String) :
    table.expandPass worklist = (table, []) := by
  induction worklist with
  | nil => rfl
  | cons key later ih =>
    rw [expandPass_cons, expandEntry_of_isClosed closed]
    dsimp only
    rw [ih]
    rfl

/-- The passes leave a closed table as it is. -/
theorem settle_of_isClosed (closed : table.IsClosed) (allowed : Nat) (worklist : List String) :
    (table.settle allowed worklist).table = table ∧
      (table.settle allowed worklist).changed = [] := by
  cases worklist with
  | nil => simp
  | cons key later =>
    cases allowed with
    | zero => exact ⟨rfl, rfl⟩
    | succ allowed =>
      rw [settle, expandPass_of_isClosed closed]
      simp only [settle_nil, List.append_nil, and_self]

/-- In a pass that changes nothing, no expansion does. -/
theorem expandEntry_eq_false_of_mem {worklist : List String}
    (unchanged : (table.expandPass worklist).2 = []) {key : String} (member : key ∈ worklist) :
    (table.expandEntry key).2 = false := by
  induction worklist with
  | nil => cases member
  | cons first later ih =>
    rw [expandPass_cons] at unchanged
    cases changed : (table.expandEntry first).2 with
    | true => simp [changed] at unchanged
    | false =>
      rw [changed, expandEntry_of_eq_false changed] at unchanged
      rcases List.mem_cons.mp member with rfl | memberLater
      · exact changed
      · exact ih unchanged memberLater

/-- A table is closed if the passes over all of it, of which there is at least one, change
nothing. -/
theorem isClosed_of_changed_eq_nil {allowed : Nat}
    (unchanged : (table.settle (allowed + 1) table.keys).changed = []) : table.IsClosed := by
  intro entry member
  refine (expandEntry_eq_false_iff member).mp ?_
  have isKey : entry.key ∈ table.keys := List.mem_map_of_mem member
  cases keys : table.keys with
  | nil =>
    rw [keys] at isKey
    cases isKey
  | cons first later =>
    rw [keys, settle] at unchanged
    have unchangedPass := (List.append_eq_nil_iff.mp unchanged).1
    rw [keys] at isKey
    exact expandEntry_eq_false_of_mem unchangedPass isKey

/-! ## Lifted guards -/

/-- In a closed table, no scan that has found an alias as it is there has lost a guard. -/
theorem not_losesGuard_of_isClosed {final : AliasTable} {scan : Scan}
    (alike : final.declared = scan.before.declared)
    (kept : final.find? scan.key = scan.before.find? scan.key) (closed : final.IsClosed) :
    ¬ scan.LosesGuard final := by
  rintro ⟨position, scanned, held, _, found, _, free⟩
  obtain ⟨token, present, resolved, _⟩ := lookup_eq_guarded_iff.mp held
  obtain ⟨other, resolvedFinally, _, foundOther⟩ := resolve?_of_declared alike resolved
  obtain rfl : _ = other := Option.some.inj (found.symm.trans foundOther)
  obtain ⟨member, sameKey⟩ := find?_some (kept.trans scanned)
  have quiet := closed _ member position
  rw [sameKey] at quiet
  exact isHit_lookup_eq_false_iff.mp quiet token _ present resolvedFinally free

/-- If the quiet scan of an alias has lost no guard, then the alias is quiet at the end. -/
theorem quiet_of_not_losesGuard {final : AliasTable} {scan : Scan} {entry : Alias}
    (alike : scan.before.declared = final.declared)
    (scanned : scan.before.find? scan.key = some entry) (quiet : scan.IsQuiet)
    (guarded : ¬ scan.LosesGuard final) : final.Quiet scan.key entry.scope entry.definition := by
  intro position
  refine isHit_lookup_eq_false_iff.mpr fun token redefined present resolvedFinally free => ?_
  obtain ⟨target, resolved, sameKey, _⟩ := resolve?_of_declared alike resolvedFinally
  have found : final.find? target.key = some redefined :=
    sameKey ▸ find?_key (mem_of_resolve? resolvedFinally)
  obtain ⟨inTable, isKey⟩ := find?_some scanned
  have wasQuiet := (expandEntry_eq_false_iff inTable).mp (isKey ▸ quiet) position
  cases guard : guard? entry.definition position (some scan.key) target with
  | none =>
    have noHit := isHit_lookup_eq_false_iff.mp wasQuiet token target present resolved
    exact noHit (isKey ▸ guard)
  | some guard' =>
    have held := lookup_eq_guarded_iff.mpr ⟨token, present, resolved, guard⟩
    refine guarded (.lifted position scanned held ?_ found ?_ free)
    · -- The guard on an alias's own definition goes by its key, which no rewriting changes.
      rintro rfl
      have own := guard?_eq_ownKey_iff.mp guard
      rw [sameKey] at own
      have stillHeld : guard? entry.definition position (some scan.key) redefined = some .ownKey :=
        guard?_eq_ownKey_iff.mpr own
      rw [free] at stillHeld
      contradiction
    · intro same
      rw [← guard?_congr sameKey.symm same, free] at guard
      contradiction

/-! ## Expanding twice -/

/-- The order of aliases depends on their scopes and names only. -/
theorem pairwise_of_declared {other : AliasTable} (alike : other.declared = table.declared)
    (sorted : table.entries.Pairwise fun left right => precedes left right = true) :
    other.entries.Pairwise fun left right => precedes left right = true := by
  have pairwise_iff : ∀ either : AliasTable,
      (either.entries.Pairwise fun left right => precedes left right = true) ↔
        either.declared.Pairwise fun left right =>
          precedes ⟨left.1, left.2, []⟩ ⟨right.1, right.2, []⟩ = true := by
    intro either
    rw [declared, List.pairwise_map]
    rfl
  rw [pairwise_iff, alike, ← pairwise_iff]
  exact sorted

theorem declared_expand (table : AliasTable) :
    table.expand.1.table.declared = table.sort.declared :=
  declared_settle _ _ _

/-- An expanded table is sorted, so that a second expansion begins with it as it is. -/
theorem settlement_expand (table : AliasTable) :
    table.expand.1.table.settlement =
      table.expand.1.table.settle (max 1 table.expand.1.table.size) table.expand.1.table.keys :=
  settlement_of_pairwise (pairwise_of_declared (declared_expand table) table.pairwise_sort)

/-- Keys of a table that no alias has are none at all. -/
theorem eq_nil_of_subset_keys {keys : List String} (known : keys ⊆ table.keys)
    (unused : ∀ entry ∈ table.entries, entry.key ∉ keys) : keys = [] := by
  refine List.eq_nil_iff_forall_not_mem.mpr fun key member => ?_
  obtain ⟨entry, inTable, rfl⟩ := List.mem_map.mp (known member)
  exact unused entry inTable member

theorem settlement_subset (table : AliasTable) :
    table.settlement.changed ⊆ table.settlement.table.keys ∧
      table.settlement.unsettled ⊆ table.settlement.table.keys := by
  unfold settlement
  rw [keys_settle]
  exact settle_subset _ _ _

/-- Without cycles, the passes have come to an end. -/
theorem unsettled_eq_nil_of_acyclic (acyclic : table.expand.1.report.cycles = []) :
    table.settlement.unsettled = [] := by
  rw [cycles_expand, List.map_eq_nil_iff] at acyclic
  refine eq_nil_of_subset_keys table.settlement_subset.2 fun entry member unsettled => ?_
  have noEntry := List.filter_eq_nil_iff.mp acyclic entry member
  simp [unsettled] at noEntry

theorem expanded_eq_zero_iff :
    table.expand.1.report.expanded = 0 ↔ table.settlement.changed = [] := by
  rw [expanded_expand, List.countP_eq_zero]
  constructor
  · intro uncounted
    refine eq_nil_of_subset_keys table.settlement_subset.1 fun entry member changed => ?_
    exact uncounted entry member (List.contains_iff_mem.mpr changed)
  · intro unchanged entry _
    simp [unchanged]

/-- Expanding a table again changes nothing exactly if the table is closed. -/
theorem isClosed_expand_iff (table : AliasTable) :
    table.expand.1.table.IsClosed ↔
      table.expand.1.table.expand.1.table = table.expand.1.table ∧
        table.expand.1.table.expand.1.report.expanded = 0 := by
  rw [expanded_eq_zero_iff, table_expand table.expand.1.table, settlement_expand]
  constructor
  · intro closed
    exact settle_of_isClosed closed _ _
  · rintro ⟨_, unchanged⟩
    obtain ⟨allowed, atLeastOne⟩ := Nat.exists_eq_add_of_le' (Nat.le_max_left 1
      table.expand.1.table.size)
    rw [atLeastOne] at unchanged
    exact isClosed_of_changed_eq_nil unchanged

/-- An expansion that comes to an end leaves a closed table exactly if no quiet scan has lost a
guard. -/
theorem isClosed_iff_of_ended (ended : table.settlement.unsettled = []) :
    table.expand.1.table.IsClosed ↔
      ∀ scan ∈ table.expansionScans, scan.IsQuiet → ¬ scan.LosesGuard table.expand.1.table := by
  have distinct : table.sort.keys.Nodup := table.sort.keys_nodup
  have alike : ∀ scan ∈ table.expansionScans,
      table.expand.1.table.declared = scan.before.declared := by
    intro scan isScan
    rw [declared_expand, declared_of_mem_scans isScan]
  constructor
  · intro closed scan isScan quiet
    have kept := find?_settle_of_quiet distinct isScan quiet
    exact not_losesGuard_of_isClosed (alike scan isScan) kept closed
  · intro guarded entry member
    have isKey : entry.key ∈ table.sort.keys := by
      rw [← keys_settle]
      exact List.mem_map_of_mem member
    obtain ⟨scan, isScan, sameKey, quiet⟩ := exists_quiet_scan ended isKey
    have scanned : scan.before.find? scan.key = some entry := by
      rw [← find?_settle_of_quiet distinct isScan quiet, sameKey]
      exact find?_key member
    rw [← sameKey]
    exact quiet_of_not_losesGuard (alike scan isScan).symm scanned quiet
      (guarded scan isScan quiet)

/-- When expansion without cycles has reached a fixed point: expanding again changes nothing exactly
if no token of the result hits, and that is so exactly if no alias that held a token back by its
definition, in a scan that changed nothing, has been rewritten later so that nothing holds the token
back any more. -/
theorem expand_expand_iff (acyclic : table.expand.1.report.cycles = []) :
    (table.expand.1.table.expand.1.table = table.expand.1.table ∧
        table.expand.1.table.expand.1.report.expanded = 0 ↔ table.expand.1.table.IsClosed) ∧
      (table.expand.1.table.IsClosed ↔
        ∀ scan ∈ table.expansionScans, scan.IsQuiet → ¬ scan.LosesGuard table.expand.1.table) :=
  ⟨(isClosed_expand_iff table).symm, isClosed_iff_of_ended (unsettled_eq_nil_of_acyclic acyclic)⟩

/-- The definition of `f` holds it back in that of `A`, and is never rewritten. -/
theorem expand_expand_iff_lasting :
    let table :=
      (empty.insertAll
        [⟨.outermost, "A", tokenize "U V f"⟩, ⟨.outermost, "C", tokenize "const f"⟩,
          ⟨.outermost, "f", tokenize "U V"⟩]).1
    let once :=
      (empty.insertAll
        [⟨.outermost, "A", tokenize "U V f"⟩, ⟨.outermost, "C", tokenize "const U V"⟩,
          ⟨.outermost, "f", tokenize "U V"⟩]).1
    table.expand.1 = ⟨once, ⟨2, 1, []⟩⟩ ∧ once.expand.1 = ⟨once, ⟨1, 0, []⟩⟩ ∧
      ∀ scan ∈ table.expansionScans, scan.IsQuiet → ¬ scan.LosesGuard once := by
  intro table once
  have first : table.expand.1 = ⟨once, ⟨2, 1, []⟩⟩ := by
    rw [expand_of_pairwise (by decide +kernel)]
    decide +kernel
  have second : once.expand.1 = ⟨once, ⟨1, 0, []⟩⟩ := by
    rw [expand_of_pairwise (by decide +kernel)]
    decide +kernel
  have acyclic : table.expand.1.report.cycles = [] := by rw [first]
  obtain ⟨closed, lasting⟩ := expand_expand_iff acyclic
  rw [first] at closed lasting
  have unchanged : once.expand.1.table = once ∧ once.expand.1.report.expanded = 0 := by
    rw [second]
    exact ⟨rfl, rfl⟩
  exact ⟨first, second, lasting.mp (closed.mp unchanged)⟩

/-- The definition `f W` of `B` holds it back in that of `A`, and is rewritten to `U V W` in the
same pass.  As nothing was substituted into `A`, it is not looked at again: an expansion without
cycles has ended before its fixed point. -/
theorem expand_expand_rewritten :
    let table :=
      (empty.insertAll
        [⟨.outermost, "A", tokenize "U V f W B"⟩, ⟨.outermost, "B", tokenize "f W"⟩,
          ⟨.outermost, "f", tokenize "U V"⟩]).1
    let once :=
      (empty.insertAll
        [⟨.outermost, "A", tokenize "U V f W B"⟩, ⟨.outermost, "B", tokenize "U V W"⟩,
          ⟨.outermost, "f", tokenize "U V"⟩]).1
    let twice :=
      (empty.insertAll
        [⟨.outermost, "A", tokenize "U V f W U V W"⟩, ⟨.outermost, "B", tokenize "U V W"⟩,
          ⟨.outermost, "f", tokenize "U V"⟩]).1
    table.expand.1 = ⟨once, ⟨2, 1, []⟩⟩ ∧ once.expand.1 = ⟨twice, ⟨2, 1, []⟩⟩ ∧ twice ≠ once ∧
      ¬ once.IsClosed := by
  intro table once twice
  have first : table.expand.1 = ⟨once, ⟨2, 1, []⟩⟩ := by
    rw [expand_of_pairwise (by decide +kernel)]
    decide +kernel
  have second : once.expand.1 = ⟨twice, ⟨2, 1, []⟩⟩ := by
    rw [expand_of_pairwise (by decide +kernel)]
    decide +kernel
  have changed : twice ≠ once := by decide +kernel
  refine ⟨first, second, changed, fun closed => changed ?_⟩
  have unchanged := (isClosed_expand_iff table).mp (first ▸ closed)
  rw [first, second] at unchanged
  exact unchanged.1

end AliasTable

end ApiReference
