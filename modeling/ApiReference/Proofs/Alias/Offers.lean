import ApiReference.Alias.Record
import ApiReference.Proofs.Alias.FixedPoint
import ApiReference.Proofs.Alias.Insertion
import ApiReference.Proofs.Alias.References
import ApiReference.Proofs.Diagnostic.Counts
import ApiReference.Proofs.Text.Names

/-!
# Offering aliases to a table

A table is filled by offers, one at a time or many in a row, between which it may be sorted and
expanded.  Whatever the order of these steps, the first alias that is offered under a key is the one
that is found by it (`declared_find?_run`).  An expansion may redefine it and nothing else does
(`find?_run`).  Every later offer under the key is refused: it leaves the table as it is and makes
one finding, unless it came with those that are put in silently.

Which offers are refused is known without looking at any table: those that repeat a key.  Counting
them accounts for all offers and all findings (`size_run`, `countP_duplicateAlias_run`).
-/

set_option autoImplicit false

namespace ApiReference

/-! ## Steps -/

/-- An alias that is offered to a table, and whether its refusal is reported. -/
structure Offer where
  entry : Alias
  reported : Bool
deriving DecidableEq, Repr

/-- What the alias that is offered would be found by. -/
def Offer.key (offer : Offer) : String :=
  offer.entry.key

/-- A step by which a table is filled or put in order. -/
inductive TableStep where
  /-- An alias is offered. -/
  | insert (entry : Alias)
  /-- Aliases are offered, and nothing is said of those that are refused. -/
  | extend (entries : List Alias)
  /-- Stored aliases are offered. -/
  | load (stored : AliasRecords)
  | sort
  | expand
deriving DecidableEq, Repr

namespace TableStep

/-- Take a step. -/
def apply (table : AliasTable) : TableStep → AliasTable × List Finding
  | insert entry => (table.insert entry, (table.refusal? entry).toList)
  | extend entries => ((table.insertAll entries).1, [])
  | load stored => table.insertAll stored.aliases
  | sort => (table.sort, [])
  | expand => (table.expand.1.table, table.expand.2)

/-- What a step offers. -/
def offers : TableStep → List Offer
  | insert entry => [⟨entry, true⟩]
  | extend entries => entries.map (Offer.mk · false)
  | load stored => stored.aliases.map (Offer.mk · true)
  | sort | expand => []

end TableStep

namespace AliasTable

variable {table : AliasTable} {entry : Alias} {key : String}

/-- Take steps one after the other. -/
def run (table : AliasTable) : List TableStep → AliasTable × List Finding
  | [] => (table, [])
  | step :: later =>
    let (next, findings) := step.apply table
    let (final, further) := next.run later
    (final, findings ++ further)

theorem run_cons (table : AliasTable) (step : TableStep) (later : List TableStep) :
    table.run (step :: later) =
      (((step.apply table).1.run later).1,
        (step.apply table).2 ++ ((step.apply table).1.run later).2) := rfl

theorem run_append (table : AliasTable) (earlier later : List TableStep) :
    table.run (earlier ++ later) =
      (((table.run earlier).1.run later).1,
        (table.run earlier).2 ++ ((table.run earlier).1.run later).2) := by
  induction earlier generalizing table with
  | nil => rfl
  | cons step between ih =>
    rw [List.cons_append, run_cons, ih, run_cons, List.append_assoc]

/-! ## One offer -/

theorem refusal?_of_mem (taken : entry.key ∈ table.keys) :
    ∃ finding : Finding, finding.code = .duplicateAlias ∧ table.refusal? entry = some finding := by
  cases found : table.find? entry.key with
  | none => exact absurd taken (find?_eq_none_iff.mp found)
  | some kept =>
    rw [refusal?, found, Option.map_some]
    exact ⟨_, rfl, rfl⟩

theorem keys_insert_of_fresh (fresh : entry.key ∉ table.keys) :
    (table.insert entry).keys = table.keys ++ [entry.key] := by
  rw [keys, entries_insert_of_fresh fresh, List.map_append]
  rfl

/-- Of the aliases that are offered, the first one with a key is found, unless one was there. -/
theorem find?_insertAll (table : AliasTable) (offered : List Alias) (key : String) :
    (table.insertAll offered).1.find? key =
      (table.find? key).or (offered.find? (·.key = key)) := by
  induction offered generalizing table with
  | nil => exact (Option.or_none).symm
  | cons first later ih =>
    rw [← List.singleton_append, List.find?_append, ← Option.or_assoc, ← find?_insert]
    exact ih (table.insert first)

/-- An alias is taken in or refused. -/
theorem size_insertAll (table : AliasTable) (offered : List Alias) :
    (table.insertAll offered).1.size + (repeats Alias.key table.keys offered).length =
      table.size + offered.length := by
  induction offered generalizing table with
  | nil => rfl
  | cons first later ih =>
    have step : (table.insertAll (first :: later)).1 = ((table.insert first).insertAll later).1 :=
      rfl
    have counted := ih (table.insert first)
    by_cases taken : first.key ∈ table.keys
    · rw [insert_of_mem taken] at counted
      rw [step, insert_of_mem taken, repeats_of_mem taken, List.length_cons, List.length_cons]
      omega
    · have grown : (table.insert first).size = table.size + 1 := by
        rw [size, entries_insert_of_fresh taken, List.length_append]
        rfl
      have sameKeys : repeats Alias.key (table.insert first).keys later =
          repeats Alias.key (first.key :: table.keys) later := by
        refine repeats_congr fun name => ?_
        rw [keys_insert_of_fresh taken, List.mem_append, List.mem_singleton, List.mem_cons]
        exact or_comm
      rw [sameKeys] at counted
      rw [step, repeats_of_notMem taken, List.length_cons]
      omega

/-- There is one finding for every alias that is refused, and it says so. -/
theorem findings_insertAll (table : AliasTable) (offered : List Alias) :
    (∀ finding ∈ (table.insertAll offered).2, finding.code = .duplicateAlias) ∧
      (table.insertAll offered).2.length = (repeats Alias.key table.keys offered).length := by
  induction offered generalizing table with
  | nil => exact ⟨List.forall_mem_nil _, rfl⟩
  | cons first later ih =>
    have step : (table.insertAll (first :: later)).2 =
        (table.refusal? first).toList ++ ((table.insert first).insertAll later).2 := rfl
    obtain ⟨codes, counted⟩ := ih (table.insert first)
    by_cases taken : first.key ∈ table.keys
    · obtain ⟨finding, code, refused⟩ := refusal?_of_mem taken
      rw [insert_of_mem taken] at codes counted
      rw [step, insert_of_mem taken, refused, repeats_of_mem taken]
      constructor
      · exact List.forall_mem_cons.mpr ⟨code, codes⟩
      · rw [List.length_append, counted, List.length_cons, Option.toList_some, List.length_singleton,
          Nat.add_comm]
    · rw [step, refusal?_of_fresh taken, repeats_of_notMem taken]
      refine ⟨codes, counted.trans (congrArg List.length (repeats_congr fun name => ?_))⟩
      rw [keys_insert_of_fresh taken, List.mem_append, List.mem_singleton, List.mem_cons]
      exact or_comm

/-! ## One step -/

/-- A step that offers something puts it in. -/
theorem table_apply (table : AliasTable) (step : TableStep) :
    step = .sort ∨ step = .expand ∨
      (step.apply table).1 = (table.insertAll (step.offers.map Offer.entry)).1 := by
  cases step with
  | insert entry => exact Or.inr (Or.inr rfl)
  | extend entries =>
    have offered : (TableStep.extend entries).offers.map Offer.entry = entries := by
      simp [TableStep.offers, Function.comp_def]
    rw [offered]
    exact Or.inr (Or.inr rfl)
  | load stored =>
    have offered : (TableStep.load stored).offers.map Offer.entry = stored.aliases := by
      simp [TableStep.offers, Function.comp_def]
    rw [offered]
    exact Or.inr (Or.inr rfl)
  | sort => exact Or.inl rfl
  | expand => exact Or.inr (Or.inl rfl)

/-- An expansion keeps of every alias what is not its definition. -/
theorem declared_find?_expand (table : AliasTable) (key : String) :
    (table.expand.1.table.find? key).map Alias.declared =
      (table.find? key).map Alias.declared := by
  rw [declared_find?, declared_expand, ← declared_find?, find?_sort]

/-- No step but an expansion changes an alias that is found. -/
theorem find?_apply {step : TableStep} (noExpansion : step ≠ .expand) (table : AliasTable)
    (key : String) :
    (step.apply table).1.find? key =
      (table.find? key).or ((step.offers.map Offer.entry).find? (·.key = key)) := by
  rcases table.table_apply step with rfl | expansion | filled
  · exact (congrFun table.find?_sort key).trans Option.or_none.symm
  · exact absurd expansion noExpansion
  · rw [filled, find?_insertAll]

/-- A step keeps of an alias that is found what is not its definition. -/
theorem declared_find?_apply (table : AliasTable) (step : TableStep) (key : String) :
    ((step.apply table).1.find? key).map Alias.declared =
      ((table.find? key).or ((step.offers.map Offer.entry).find? (·.key = key))).map
        Alias.declared := by
  by_cases expansion : step = .expand
  · subst expansion
    exact (table.declared_find?_expand key).trans (congrArg _ Option.or_none.symm)
  · rw [find?_apply expansion]

theorem mem_keys_apply (table : AliasTable) (step : TableStep) (key : String) :
    key ∈ (step.apply table).1.keys ↔ key ∈ table.keys ∨ key ∈ step.offers.map Offer.key := by
  have found := congrArg Option.isSome (table.declared_find?_apply step key)
  rw [Option.isSome_map, Option.isSome_map, Option.isSome_or] at found
  have offered : step.offers.map Offer.key = (step.offers.map Offer.entry).map Alias.key := by
    rw [List.map_map]
    rfl
  rw [offered, ← find?_isSome_iff, ← find?_isSome_iff, ← find?_name_isSome_iff, ← Bool.or_eq_true]
  exact iff_of_eq (congrArg (· = true) found)

/-- What a step offers is taken in or refused. -/
theorem size_apply (table : AliasTable) (step : TableStep) :
    (step.apply table).1.size + (repeats Offer.key table.keys step.offers).length =
      table.size + step.offers.length := by
  rcases table.table_apply step with rfl | rfl | filled
  · exact table.entries_sort_perm.length_eq
  · have sameSize := congrArg List.length (declared_expand table)
    rw [declared, declared, List.length_map, List.length_map] at sameSize
    exact sameSize.trans table.entries_sort_perm.length_eq
  · have counted := table.size_insertAll (step.offers.map Offer.entry)
    rwa [repeats_map, List.length_map, List.length_map, ← filled] at counted

/-- A step makes one finding for every offer that is refused, unless that is not reported. -/
theorem countP_duplicateAlias_apply (table : AliasTable) (step : TableStep) :
    (step.apply table).2.countP (·.code = .duplicateAlias) =
      (repeats Offer.key table.keys step.offers).countP Offer.reported := by
  have reported (entries : List Alias) :
      (table.insertAll entries).2.countP (·.code = .duplicateAlias) =
        (repeats Offer.key table.keys (entries.map (Offer.mk · true))).countP Offer.reported := by
    obtain ⟨codes, counted⟩ := table.findings_insertAll entries
    have all : (table.insertAll entries).2.countP (·.code = .duplicateAlias) =
        (table.insertAll entries).2.length :=
      List.countP_eq_length.mpr fun finding member => decide_eq_true (codes finding member)
    rw [all, counted, repeats_map, List.countP_map]
    exact (List.countP_eq_length.mpr fun _ _ => rfl).symm
  cases step with
  | insert entry =>
    have single : (table.insertAll [entry]).2 = (table.refusal? entry).toList := List.append_nil _
    exact (congrArg (List.countP _) single.symm).trans (reported [entry])
  | load stored => exact reported stored.aliases
  | extend entries =>
    rw [TableStep.offers, repeats_map, List.countP_map]
    exact (List.countP_eq_zero.mpr fun _ _ => Bool.false_ne_true).symm
  | sort => rfl
  | expand =>
    refine List.countP_eq_zero.mpr fun finding member => ?_
    obtain ⟨cyclic, -, rfl⟩ := List.mem_map.mp member
    show ¬ decide (DiagnosticCode.aliasCycle = .duplicateAlias) = true
    decide

/-! ## All steps -/

/-- What a run of steps keeps of an alias that is found. -/
theorem declared_find?_run (table : AliasTable) (steps : List TableStep) (key : String) :
    ((table.run steps).1.find? key).map Alias.declared =
      ((table.find? key).or
        (((steps.flatMap TableStep.offers).map Offer.entry).find? (·.key = key))).map
          Alias.declared := by
  induction steps generalizing table with
  | nil => exact congrArg _ Option.or_none.symm
  | cons step later ih =>
    have one := table.declared_find?_apply step key
    rw [run_cons, ih, List.flatMap_cons, List.map_append, List.find?_append, ← Option.or_assoc,
      Option.map_or, one, ← Option.map_or]

/-- As long as nothing is expanded, an alias is found as it was offered. -/
theorem find?_run {steps : List TableStep} (noExpansion : TableStep.expand ∉ steps)
    (table : AliasTable) (key : String) :
    (table.run steps).1.find? key =
      (table.find? key).or
        (((steps.flatMap TableStep.offers).map Offer.entry).find? (·.key = key)) := by
  induction steps generalizing table with
  | nil => exact Option.or_none.symm
  | cons step later ih =>
    obtain ⟨notHere, notLater⟩ := not_or.mp (mt List.mem_cons.mpr noExpansion)
    rw [run_cons, ih notLater, find?_apply (Ne.symm notHere), List.flatMap_cons, List.map_append,
      List.find?_append, Option.or_assoc]

theorem mem_keys_run (table : AliasTable) (steps : List TableStep) (key : String) :
    key ∈ (table.run steps).1.keys ↔
      key ∈ table.keys ∨ key ∈ (steps.flatMap TableStep.offers).map Offer.key := by
  induction steps generalizing table with
  | nil => simp [run]
  | cons step later ih =>
    rw [run_cons, ih, mem_keys_apply, List.flatMap_cons, List.map_append, List.mem_append, or_assoc]

/-- The offers of a step and of those behind it that are refused. -/
theorem repeats_offers_cons (table : AliasTable) (step : TableStep) (later : List Offer) :
    repeats Offer.key table.keys (step.offers ++ later) =
      repeats Offer.key table.keys step.offers ++
        repeats Offer.key (step.apply table).1.keys later := by
  rw [repeats_append]
  congr 1
  refine repeats_congr fun key => ?_
  rw [mem_keys_apply, List.mem_append, or_comm]

theorem size_run (table : AliasTable) (steps : List TableStep) :
    (table.run steps).1.size +
        (repeats Offer.key table.keys (steps.flatMap TableStep.offers)).length =
      table.size + (steps.flatMap TableStep.offers).length := by
  induction steps generalizing table with
  | nil => rfl
  | cons step later ih =>
    have here := table.size_apply step
    have after := ih (step.apply table).1
    rw [run_cons, List.flatMap_cons, repeats_offers_cons, List.length_append, List.length_append]
    dsimp only
    omega

theorem countP_duplicateAlias_run (table : AliasTable) (steps : List TableStep) :
    (table.run steps).2.countP (·.code = .duplicateAlias) =
      (repeats Offer.key table.keys (steps.flatMap TableStep.offers)).countP Offer.reported := by
  induction steps generalizing table with
  | nil => rfl
  | cons step later ih =>
    rw [run_cons, List.flatMap_cons, repeats_offers_cons, List.countP_append, List.countP_append,
      ih, countP_duplicateAlias_apply]

/-- Offering aliases in a row is offering them one at a time. -/
theorem insertAll_eq_run (table : AliasTable) (offered : List Alias) :
    table.insertAll offered = table.run (offered.map TableStep.insert) := by
  induction offered generalizing table with
  | nil => rfl
  | cons first later ih =>
    rw [List.map_cons, run_cons, insertAll, ih]
    rfl

/-- An offer under a key that is taken changes nothing and makes one finding. -/
theorem apply_insert_of_mem (taken : entry.key ∈ table.keys) :
    ∃ finding : Finding, finding.code = .duplicateAlias ∧
      (TableStep.insert entry).apply table = (table, [finding]) := by
  obtain ⟨finding, code, refused⟩ := refusal?_of_mem taken
  refine ⟨finding, code, ?_⟩
  rw [TableStep.apply, insert_of_mem taken, refused]
  rfl

/-- An offer under another key is put behind the aliases of the table and entered there in the
index, and makes no finding. -/
theorem apply_insert_of_notMem (fresh : entry.key ∉ table.keys) :
    ∃ filled : AliasTable, filled.entries = table.entries ++ [entry] ∧
      filled.store.index = table.store.index.insert entry.key table.size ∧
      (TableStep.insert entry).apply table = (filled, []) := by
  have entered := table.made.exact.insert_of_notMem fresh
  refine ⟨table.insert entry, congrArg IndexedList.items entered,
    congrArg IndexedList.index entered, ?_⟩
  rw [TableStep.apply, refusal?_of_fresh fresh]
  rfl

theorem notMem_keys_empty (key : String) : key ∉ empty.keys :=
  List.not_mem_nil

/-- However a table is filled, sorted and expanded, its keys are distinct, and the index gives for a
key exactly the position at which its alias stands.  An alias is found by a key exactly if one was
offered under it.  It has the key, and it is the first of those offered, up to its definition, which
is what it was unless an expansion came later.

An offer under a key that was offered before is refused with one finding and changes nothing, the
index included; any other is taken in.  Stored aliases are offered like single ones, and those that
are put in silently as well, except that they make no finding.  So the offers are as many as the
aliases of the table and the refused offers together, and there are as many diagnostics of
duplicates as refused offers that are reported. -/
theorem firstOffers_kept (steps : List TableStep) :
    let offers := steps.flatMap TableStep.offers
    let refused := repeats Offer.key [] offers
    let table := (empty.run steps).1
    let log := DiagnosticLog.ofFindings (empty.run steps).2
    table.keys.Nodup ∧
    (∀ key position, table.store.position? key = some position ↔
      ∃ entry, table.entries[position]? = some entry ∧ entry.key = key) ∧
    (∀ key, table.contains key = true ↔ key ∈ offers.map Offer.key) ∧
    (∀ key entry, table.find? key = some entry ↔ entry ∈ table.entries ∧ entry.key = key) ∧
    (∀ key, (table.find? key).map Alias.declared =
      ((offers.map Offer.entry).find? (·.key = key)).map Alias.declared) ∧
    (∀ earlier later, steps = earlier ++ later → TableStep.expand ∉ later →
      ∀ key, table.find? key = ((empty.run earlier).1.find? key).or
        (((later.flatMap TableStep.offers).map Offer.entry).find? (·.key = key))) ∧
    (∀ entry, entry.key ∈ offers.map Offer.key →
      ∃ finding : Finding, finding.code = .duplicateAlias ∧
        (TableStep.insert entry).apply table = (table, [finding])) ∧
    (∀ entry, entry.key ∉ offers.map Offer.key →
      ∃ filled : AliasTable, filled.entries = table.entries ++ [entry] ∧
        filled.store.index = table.store.index.insert entry.key table.size ∧
        (TableStep.insert entry).apply table = (filled, [])) ∧
    (∀ stored : AliasRecords, (TableStep.load stored).apply table =
      table.run (stored.aliases.map TableStep.insert)) ∧
    (∀ entries, (TableStep.extend entries).apply table =
      ((table.run (entries.map TableStep.insert)).1, [])) ∧
    table.size + refused.length = offers.length ∧
    log.countOf .duplicateAlias = refused.countP Offer.reported := by
  intro offers refused table log
  have mem_keys : ∀ key, key ∈ table.keys ↔ key ∈ offers.map Offer.key := by
    intro key
    rw [mem_keys_run, or_iff_right (notMem_keys_empty key)]
  refine ⟨table.keys_nodup, fun _ _ => table.made.exact.position?_eq_some_iff, ?contains,
    fun _ _ => find?_eq_some_iff, ?declared, ?redefined, ?refused, ?taken, ?loaded, ?extended, ?size,
    ?findings⟩
  case contains =>
    intro key
    rw [contains_iff, mem_keys]
  case declared =>
    intro key
    exact empty.declared_find?_run steps key
  case redefined =>
    rintro earlier later rfl noExpansion key
    rw [show table = _ from congrArg Prod.fst (empty.run_append earlier later)]
    exact find?_run noExpansion _ key
  case refused =>
    intro entry offered
    exact apply_insert_of_mem ((mem_keys _).mpr offered)
  case taken =>
    intro entry fresh
    exact apply_insert_of_notMem (mt (mem_keys _).mp fresh)
  case loaded =>
    intro stored
    exact table.insertAll_eq_run stored.aliases
  case extended =>
    intro entries
    rw [TableStep.apply, insertAll_eq_run]
  case size =>
    exact (empty.size_run steps).trans (Nat.zero_add _)
  case findings =>
    exact (DiagnosticLog.countOf_ofFindings _ _).trans (empty.countP_duplicateAlias_run steps)

end AliasTable

end ApiReference
