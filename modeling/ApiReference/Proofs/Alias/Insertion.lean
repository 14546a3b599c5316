import ApiReference.Proofs.Alias.Table

/-!
# Filling a table

Aliases whose keys differ from one another and from those in the table are all taken in, in the
order in which they are offered, and none is reported (`insertAll_of_nodup`).  A table is therefore
rebuilt from its own entries (`insertAll_entries`).  Whatever is offered, a table holds nothing that
it did not hold before and was not offered (`mem_entries_insertAll`).
-/

set_option autoImplicit false

namespace ApiReference

namespace AliasTable

theorem refusal?_of_fresh {table : AliasTable} {entry : Alias} (fresh : entry.key ∉ table.keys) :
    table.refusal? entry = none := by
  rw [refusal?, find?_eq_none_iff.mpr fresh]
  rfl

theorem mem_entries_insert {table : AliasTable} {entry other : Alias}
    (member : other ∈ (table.insert entry).entries) : other ∈ table.entries ∨ other = entry := by
  by_cases taken : entry.key ∈ table.keys
  · rw [insert_of_mem taken] at member
    exact Or.inl member
  · rw [entries_insert_of_fresh taken] at member
    simpa using member

/-- What is in a filled table was there before or was offered. -/
theorem mem_entries_insertAll {table : AliasTable} {offered : List Alias} {entry : Alias}
    (member : entry ∈ (table.insertAll offered).1.entries) :
    entry ∈ table.entries ∨ entry ∈ offered := by
  induction offered generalizing table with
  | nil => exact Or.inl member
  | cons first later ih =>
    rcases ih member with earlier | offeredLater
    · rcases mem_entries_insert earlier with before | rfl
      · exact Or.inl before
      · exact Or.inr List.mem_cons_self
    · exact Or.inr (List.mem_cons_of_mem _ offeredLater)

/-- Aliases whose keys are all new are taken in, in their order, and none is reported. -/
theorem insertAll_of_nodup {table : AliasTable} {offered : List Alias}
    (distinct : (table.keys ++ offered.map Alias.key).Nodup) :
    (table.insertAll offered).1.entries = table.entries ++ offered ∧
      (table.insertAll offered).2 = [] := by
  induction offered generalizing table with
  | nil => exact ⟨(List.append_nil _).symm, rfl⟩
  | cons first later ih =>
    have fresh : first.key ∉ table.keys := by
      intro known
      exact (List.nodup_append.mp distinct).2.2 _ known _ List.mem_cons_self rfl
    have grown := entries_insert_of_fresh fresh
    have distinctLater : ((table.insert first).keys ++ later.map Alias.key).Nodup := by
      simpa [keys, grown] using distinct
    obtain ⟨entries, findings⟩ := ih distinctLater
    constructor
    · simpa [insertAll, grown] using entries
    · simpa [insertAll, refusal?_of_fresh fresh] using findings

/-- Aliases with different keys make a table of themselves. -/
theorem insertAll_empty {offered : List Alias} (distinct : (offered.map Alias.key).Nodup) :
    (empty.insertAll offered).1.entries = offered ∧ (empty.insertAll offered).2 = [] :=
  insertAll_of_nodup distinct

/-- A table is rebuilt from its entries. -/
theorem insertAll_entries (table : AliasTable) :
    empty.insertAll table.entries = (table, []) := by
  obtain ⟨entries, findings⟩ := insertAll_empty table.keys_nodup
  exact Prod.ext (ext entries) findings

end AliasTable

end ApiReference
