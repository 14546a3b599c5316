import ApiReference.Alias.Closure
import ApiReference.Proofs.Alias.Insertion
import Mathlib.Data.List.Nodup
import Mathlib.Data.String.Basic

/-!
# The order of insertion does not matter

`precedes` orders aliases by name and then by key.  It is total and transitive, and aliases that
precede one another have the same key (`key_eq_of_precedes`), so that a table has exactly one sorted
form (`sort_eq_of_perm`).

Expansion starts from that form.  Although a pass reads definitions that the same pass has
rewritten, aliases with different keys are therefore expanded alike in whatever order they are
offered (`expand_insertAll_perm`).
-/

set_option autoImplicit false

namespace ApiReference

namespace AliasTable

/-! ## Sorting -/

theorem precedes_iff {left right : Alias} :
    precedes left right = true ↔
      left.name < right.name ∨ (left.name = right.name ∧ left.key ≤ right.key) := by
  simp [precedes]

theorem precedes_total (left right : Alias) :
    (precedes left right || precedes right left) = true := by
  rw [Bool.or_eq_true, precedes_iff, precedes_iff]
  rcases lt_trichotomy left.name right.name with smaller | same | larger
  · exact Or.inl (Or.inl smaller)
  · rcases le_total left.key right.key with keyLe | keyGe
    · exact Or.inl (Or.inr ⟨same, keyLe⟩)
    · exact Or.inr (Or.inr ⟨same.symm, keyGe⟩)
  · exact Or.inr (Or.inl larger)

theorem precedes_trans (left middle right : Alias) (first : precedes left middle = true)
    (second : precedes middle right = true) : precedes left right = true := by
  rw [precedes_iff] at first second ⊢
  rcases first with smaller | ⟨same, keyLe⟩
  · rcases second with smaller' | ⟨same', _⟩
    · exact Or.inl (smaller.trans smaller')
    · exact Or.inl (same' ▸ smaller)
  · rcases second with smaller' | ⟨same', keyLe'⟩
    · exact Or.inl (same ▸ smaller')
    · exact Or.inr ⟨same.trans same', keyLe.trans keyLe'⟩

/-- Aliases that precede one another have the same key. -/
theorem key_eq_of_precedes {left right : Alias} (forth : precedes left right = true)
    (back : precedes right left = true) : left.key = right.key := by
  rw [precedes_iff] at forth back
  rcases forth with smaller | ⟨same, keyLe⟩
  · rcases back with larger | ⟨same, _⟩
    · exact absurd larger smaller.asymm
    · exact absurd same smaller.ne'
  · rcases back with larger | ⟨_, keyGe⟩
    · exact absurd same larger.ne'
    · exact le_antisymm keyLe keyGe

theorem pairwise_sort (table : AliasTable) :
    table.sort.entries.Pairwise fun left right => precedes left right = true :=
  List.pairwise_mergeSort precedes_trans precedes_total table.entries

/-- Sorting leaves a sorted table as it is. -/
theorem sort_of_pairwise {table : AliasTable}
    (sorted : table.entries.Pairwise fun left right => precedes left right = true) :
    table.sort = table :=
  AliasTable.ext (List.mergeSort_of_pairwise sorted)

/-- Tables of the same aliases have the same sorted form. -/
theorem sort_eq_of_perm {table other : AliasTable} (same : table.entries.Perm other.entries) :
    table.sort = other.sort := by
  have sortedPerm : table.sort.entries.Perm other.sort.entries :=
    ((List.mergeSort_perm _ _).trans same).trans (List.mergeSort_perm _ _).symm
  refine AliasTable.ext (List.Perm.eq_of_pairwise ?_ table.pairwise_sort other.pairwise_sort
    sortedPerm)
  intro left right inTable inOther forth back
  have inTable' : right ∈ table.sort.entries := sortedPerm.mem_iff.mpr inOther
  exact List.inj_on_of_nodup_map table.sort.keys_nodup inTable inTable'
    (key_eq_of_precedes forth back)

/-! ## Expansion -/

/-- Tables of the same aliases are expanded alike, with the same findings. -/
theorem expand_eq_of_perm {table other : AliasTable} (same : table.entries.Perm other.entries) :
    table.expand = other.expand := by
  rw [expand, expand, sort_eq_of_perm same]

/-- Where the passes over a table end, which begin when it is sorted. -/
def settlement (table : AliasTable) : Settlement :=
  table.sort.settle (max 1 table.sort.size) table.sort.keys

theorem table_expand (table : AliasTable) : table.expand.1.table = table.settlement.table := rfl

theorem cycles_expand (table : AliasTable) :
    table.expand.1.report.cycles = (cyclicEntries table.settlement).map Alias.key := rfl

theorem expanded_expand (table : AliasTable) :
    table.expand.1.report.expanded =
      table.settlement.table.entries.countP (table.settlement.changed.contains ·.key) := rfl

/-- The passes over a sorted table begin with the table itself. -/
theorem settlement_of_pairwise {table : AliasTable}
    (sorted : table.entries.Pairwise fun left right => precedes left right = true) :
    table.settlement = table.settle (max 1 table.size) table.keys := by
  rw [settlement, sort_of_pairwise sorted]

/-- The expansion of a sorted table, which begins with the table itself. -/
theorem expand_of_pairwise {table : AliasTable}
    (sorted : table.entries.Pairwise fun left right => precedes left right = true) :
    table.expand.1 =
      let settlement := table.settle (max 1 table.size) table.keys
      ⟨settlement.table,
        { passes := settlement.passes
          expanded := settlement.table.entries.countP (settlement.changed.contains ·.key)
          cycles := (cyclicEntries settlement).map Alias.key }⟩ := by
  rw [expand, sort_of_pairwise sorted]

/-- Aliases with different keys are expanded alike in every order: they make the same table, report
and findings, and a declaration is given the same type. -/
theorem expand_insertAll_perm {offered other : List Alias}
    (distinct : (offered.map Alias.key).Nodup) (reordered : offered.Perm other) :
    (empty.insertAll offered).1.expand = (empty.insertAll other).1.expand ∧
      (empty.insertAll offered).2 = [] ∧ (empty.insertAll other).2 = [] ∧
      ∀ scope tokens,
        (empty.insertAll offered).1.expand.1.normalize scope tokens =
          (empty.insertAll other).1.expand.1.normalize scope tokens := by
  have distinctOther : (other.map Alias.key).Nodup := (reordered.map Alias.key).nodup distinct
  obtain ⟨entries, findings⟩ := insertAll_empty distinct
  obtain ⟨otherEntries, otherFindings⟩ := insertAll_empty distinctOther
  have alike : (empty.insertAll offered).1.expand = (empty.insertAll other).1.expand := by
    apply expand_eq_of_perm
    rw [entries, otherEntries]
    exact reordered
  refine ⟨alike, findings, otherFindings, fun scope tokens => ?_⟩
  rw [alike]

/-- Three aliases in a chain, two of them of one name, offered forth and back.  The second one takes
two passes, since it stands before the alias it refers to. -/
theorem expand_insertAll_perm_chain :
    let offered : List Alias :=
      [⟨.outermost, "A", tokenize "U"⟩, ⟨⟨["N"]⟩, "A", tokenize "B"⟩,
        ⟨.outermost, "B", tokenize "const A&"⟩]
    (offered.map Alias.key).Nodup ∧ offered.Perm offered.reverse ∧
      (empty.insertAll offered).1.expand = (empty.insertAll offered.reverse).1.expand ∧
      (empty.insertAll offered.reverse).1.expand.1.table.entries.map
        (Token.joinedText ·.definition) = ["U", "const U &", "const U &"] := by
  intro offered
  have distinct : (offered.map Alias.key).Nodup := by decide
  have reordered : offered.Perm offered.reverse := (List.reverse_perm offered).symm
  have sorted : (empty.insertAll offered).1.entries.Pairwise fun left right =>
      precedes left right = true := by
    decide +kernel
  have alike := (expand_insertAll_perm distinct reordered).1
  refine ⟨distinct, reordered, alike, ?_⟩
  rw [← alike, expand_of_pairwise sorted]
  decide +kernel

end AliasTable

end ApiReference
