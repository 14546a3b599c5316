import ApiReference.Proofs.Alias.Cycles
import ApiReference.Proofs.Alias.Report

/-!
# The search for cycles

An alias points to another if some token of its definition resolves to it, other than at the end of
the three tokens that the definition of the other opens with.  The search works backwards from the
aliases that point to themselves: every round adds those that point to one it has.  It stops in the
first round that adds none, and as each round before adds an alias, there are not more rounds than
aliases (`exists_searchEndsAfter`).

What the search has found when it stops are the aliases from which pointers lead, over any number of
others, to one that points to itself.  The report of an expansion names these and the aliases that
the last pass allowed has still changed, whatever number of passes that is
(`mem_cycles_iff_leads`).
-/

set_option autoImplicit false

namespace ApiReference

namespace AliasTable

open Relation

variable {table : AliasTable} {key target : String} {reached : List String}

/-! ## Pointers -/

/-- A token and the two before it spell the first three tokens of a definition. -/
def EndsOpening (before : List Token) (token : Token) (definition : List Token) : Prop :=
  ∃ outer first second, before = outer ++ [first, second] ∧
    (definition.take 3).map Token.text = [first.text, second.text, token.text]

/-- Some token in the definition of the alias with the first key resolves to the alias with the
second, and does not end the spelling that the definition of that alias opens with. -/
def PointsTo (table : AliasTable) (key target : String) : Prop :=
  ∃ entry ∈ table.entries, entry.key = key ∧
    ∃ before token after, entry.definition = before ++ token :: after ∧
      ∃ aim, table.resolve? token.text entry.scope = some aim ∧ aim.key = target ∧
        ¬ EndsOpening before token aim.definition

/-- A token at some position has as many before it. -/
theorem exists_split_of_getElem? {tokens : List Token} {position : Nat} {token : Token}
    (present : tokens[position]? = some token) :
    ∃ before after, tokens = before ++ token :: after ∧ before.length = position := by
  obtain ⟨inside, rfl⟩ := List.getElem?_eq_some_iff.mp present
  exact ⟨tokens.take position, tokens.drop (position + 1),
    by rw [← List.drop_eq_getElem_cons inside, List.take_append_drop],
    List.length_take_of_le inside.le⟩

theorem refersPlainly_iff_pointsTo :
    table.RefersPlainly key target ↔ table.PointsTo key target := by
  constructor
  · rintro ⟨entry, member, rfl, refers⟩
    obtain ⟨position, token, aim, present, resolved, isTarget, plain⟩ := refersTo_iff.mp refers
    obtain ⟨before, after, split, rfl⟩ := exists_split_of_getElem? present
    refine ⟨entry, member, rfl, before, token, after, split, aim, resolved,
      of_decide_eq_true isTarget, fun ends => ?_⟩
    rw [split, spellsOpening_behind_iff.mpr ends] at plain
    cases plain
  · rintro ⟨entry, member, rfl, before, token, after, split, aim, resolved, rfl, plain⟩
    refine ⟨entry, member, rfl, refersTo_iff.mpr ⟨before.length, token, aim, ?_, resolved,
      decide_eq_true rfl, ?_⟩⟩
    · rw [split]
      simp
    · rw [split, ← Bool.not_eq_true]
      exact fun spells => plain (spellsOpening_behind_iff.mp spells)

theorem refersPlainly_eq_pointsTo : table.RefersPlainly = table.PointsTo := by
  funext key target
  exact propext refersPlainly_iff_pointsTo

/-! ## Rounds -/

/-- One round of the search. -/
def searchRound (table : AliasTable) (reached : List String) : List String :=
  reached ++ table.referringInto reached

/-- The search goes on as long as its rounds add something, and every round leaves fewer aliases
unreached. -/
theorem reachingInto_eq_iterate (table : AliasTable) (reached : List String) :
    ∃ rounds ≤ (table.unreached reached).length,
      table.reachingInto reached = table.searchRound^[rounds] reached ∧
        table.referringInto (table.searchRound^[rounds] reached) = [] ∧
          ∀ earlier < rounds, table.referringInto (table.searchRound^[earlier] reached) ≠ [] := by
  induction reached using reachingInto.induct table with
  | case1 reached more ih =>
    -- the rounds from what this round adds are one fewer
    obtain ⟨rounds, few, result, complete, productive⟩ := ih
    refine ⟨rounds + 1, Nat.lt_of_le_of_lt few (length_unreached_lt more), ?_, complete, ?_⟩
    · rw [reachingInto, dif_pos more, result]
      rfl
    · intro earlier before
      cases earlier with
      | zero => exact more
      | succ earlier => exact productive earlier (Nat.lt_of_succ_lt_succ before)
  | case2 reached complete =>
    have none : table.reachingInto reached = reached := by rw [reachingInto, dif_neg complete]
    exact ⟨0, Nat.zero_le _, none, not_not.mp complete,
      fun _ before => absurd before (Nat.not_lt_zero _)⟩

/-- How the search over a table goes, with the number of its rounds. -/
inductive SearchEndsAfter (table : AliasTable) : (rounds : Nat) → Prop where
  /-- No alias refers to itself, and there is nothing to search for. -/
  | atOnce (noneSelf : table.selfReferring = []) (found : table.residualCycles = []) :
      SearchEndsAfter table 0
  /-- Every round adds something but the last. -/
  | inRound (last : Nat) (someSelf : table.selfReferring ≠ [])
      (productive : ∀ round < last,
        table.referringInto (table.searchRound^[round] table.selfReferring) ≠ [])
      (complete : table.referringInto (table.searchRound^[last] table.selfReferring) = [])
      (found : table.residualCycles = table.searchRound^[last] table.selfReferring) :
      SearchEndsAfter table (last + 1)

/-- Some alias has been reached as soon as there is any that refers to itself. -/
theorem length_unreached_selfReferring_lt (someSelf : table.selfReferring ≠ []) :
    (table.unreached table.selfReferring).length < table.size := by
  obtain ⟨key, member⟩ := List.exists_mem_of_ne_nil _ someSelf
  obtain ⟨entry, filtered, rfl⟩ := List.mem_map.mp member
  refine List.length_filter_lt_length_iff_exists.mpr
    ⟨entry, (List.mem_filter.mp filtered).1, ?_⟩
  simpa using member

/-- The search makes at most as many rounds as there are aliases. -/
theorem exists_searchEndsAfter (table : AliasTable) :
    ∃ rounds ≤ table.size, table.SearchEndsAfter rounds := by
  by_cases noneSelf : table.selfReferring = []
  · refine ⟨0, Nat.zero_le _, .atOnce noneSelf ?_⟩
    rw [List.eq_nil_iff_forall_not_mem]
    intro key found
    obtain ⟨turn, _, self⟩ := mem_residualCycles.mp found
    rw [← mem_selfReferring, noneSelf] at self
    cases self
  · obtain ⟨last, few, found, complete, productive⟩ :=
      table.reachingInto_eq_iterate table.selfReferring
    refine ⟨last + 1, ?_, .inRound last noneSelf productive complete found⟩
    exact Nat.lt_of_le_of_lt few (length_unreached_selfReferring_lt noneSelf)

/-! ## The report -/

/-- The expansion of a table in a limited number of passes, of which there is at least one. -/
def expandWithin (table : AliasTable) (bound : Nat) : ExpandedTable × List Finding :=
  let settlement := table.sort.settle (max 1 bound) table.sort.keys
  let cyclic := cyclicEntries settlement
  let report : ClosureReport :=
    { passes := settlement.passes
      expanded := settlement.table.entries.countP (settlement.changed.contains ·.key)
      cycles := cyclic.map Alias.key }
  (⟨settlement.table, report⟩, cyclic.map (cycleFinding settlement))

theorem length_keys : table.keys.length = table.size :=
  List.length_map _

/-- Expansion allows as many passes as there are aliases. -/
theorem expandWithin_size (table : AliasTable) : table.expandWithin table.size = table.expand := by
  rw [expandWithin, ← size_sort]
  rfl

/-- Which aliases an expansion reports, however many passes it may make, as many as there are
aliases in particular: those that the last pass allowed has changed, and those from which pointers
lead to an alias that points to itself.  The search for them makes at most as many rounds as there
are aliases. -/
theorem mem_cycles_iff_leads (table : AliasTable) (bound : Nat) :
    let result := (table.expandWithin bound).1
    (∀ key, key ∈ result.report.cycles ↔
      table.ChangedIn (max 1 bound - 1) key ∨
        ∃ turn, ReflTransGen result.table.PointsTo key turn ∧ result.table.PointsTo turn turn) ∧
      (∃ rounds ≤ table.size, result.table.SearchEndsAfter rounds) ∧
        table.expandWithin table.size = table.expand := by
  intro result
  refine ⟨fun key => ?_, ?_, table.expandWithin_size⟩
  · have allowed : 0 < max 1 bound := Nat.lt_of_lt_of_le Nat.zero_lt_one (Nat.le_max_left 1 bound)
    have reported : key ∈ result.report.cycles ↔ _ := mem_cyclicEntries_iff
    rw [reported, mem_unsettled_iff_changedIn allowed, mem_residualCycles,
      refersPlainly_eq_pointsTo]
    rfl
  · have sameKeys : result.table.keys = table.sort.keys := keys_settle _ _ _
    -- passes rename no alias, so that the searched table has as many as the given one
    have sameSize : result.table.size = table.size := by
      calc result.table.size
        _ = table.sort.keys.length := by rw [← length_keys, sameKeys]
        _ = table.size := by rw [length_keys, size_sort]
    rw [← sameSize]
    exact result.table.exists_searchEndsAfter

end AliasTable

end ApiReference
