import ApiReference.Alias.Table
import ApiReference.Proofs.Store.Exactness

/-!
# Tables of aliases

What the operations of a table do to its aliases, given that its index is exact.  The aliases alone
determine a table (`AliasTable.ext`), and an alias is found by its key exactly if it is in the table
(`find?_key`).
-/

set_option autoImplicit false

namespace ApiReference

namespace AliasTable

variable {table other : AliasTable} {entry : Alias} {key : String}

theorem ext (same : table.entries = other.entries) : table = other := by
  obtain ⟨store, made⟩ := table
  obtain ⟨otherStore, otherMade⟩ := other
  obtain rfl : store = otherStore := made.exact.eq_of_items_eq otherMade.exact same
  rfl

/-! ## Looking up -/

theorem keys_nodup (table : AliasTable) : table.keys.Nodup :=
  table.made.exact.nodup

theorem find?_eq (table : AliasTable) (key : String) :
    table.find? key = table.entries.find? (·.key = key) :=
  table.made.exact.find?_eq key

theorem contains_iff : table.contains key = true ↔ key ∈ table.keys :=
  table.made.exact.contains_iff

theorem find?_isSome_iff : (table.find? key).isSome = true ↔ key ∈ table.keys := by
  rw [find?_eq]
  exact find?_name_isSome_iff

theorem find?_eq_none_iff : table.find? key = none ↔ key ∉ table.keys := by
  rw [← find?_isSome_iff, Bool.not_eq_true, Option.isSome_eq_false_iff, Option.isNone_iff_eq_none]

theorem find?_eq_some_iff :
    table.find? key = some entry ↔ entry ∈ table.entries ∧ entry.key = key :=
  table.made.exact.find?_eq_some_iff

/-- What is found by a key has that key and is in the table. -/
theorem find?_some (found : table.find? key = some entry) :
    entry ∈ table.entries ∧ entry.key = key :=
  find?_eq_some_iff.mp found

/-- Every alias of a table is found by its key. -/
theorem find?_key (member : entry ∈ table.entries) : table.find? entry.key = some entry :=
  find?_eq_some_iff.mpr ⟨member, rfl⟩

/-! ## Operations -/

theorem insert_of_mem (taken : entry.key ∈ table.keys) : table.insert entry = table :=
  ext (congrArg IndexedList.items (table.made.exact.insert_of_mem taken))

theorem entries_insert_of_fresh (fresh : entry.key ∉ table.keys) :
    (table.insert entry).entries = table.entries ++ [entry] :=
  congrArg IndexedList.items (table.made.exact.insert_of_notMem fresh)

/-- The alias that was found before stays, and otherwise it is the one that is offered. -/
theorem find?_insert (table : AliasTable) (entry : Alias) (key : String) :
    (table.insert entry).find? key = (table.find? key).or ([entry].find? (·.key = key)) :=
  table.made.exact.find?_insert entry key

theorem find?_sort (table : AliasTable) : table.sort.find? = table.find? :=
  funext (table.made.exact.find?_sort precedes)

/-- The alias itself, or with another definition if it has the key. -/
def redefineAt (key : String) (definition : List Token) (entry : Alias) : Alias :=
  if entry.key = key then entry.redefine definition else entry

theorem entries_redefine (table : AliasTable) (key : String) (definition : List Token) :
    (table.redefine key definition).entries = table.entries.map (redefineAt key definition) :=
  table.made.exact.items_modify key _

@[simp]
theorem keys_redefine (table : AliasTable) (key : String) (definition : List Token) :
    (table.redefine key definition).keys = table.keys := by
  rw [keys, entries_redefine]
  exact IndexedList.names_map
    (IndexedList.KeepsName.ite (fun entry => entry.key_redefine definition) key) table.entries

theorem find?_redefine (table : AliasTable) (key : String) (definition : List Token)
    (other : String) :
    (table.redefine key definition).find? other =
      (table.find? other).map (redefineAt key definition) :=
  table.made.exact.find?_modify key _ other

end AliasTable

end ApiReference
