import ApiReference.Alias.Substitution

/-!
# Expanding a table

The aliases of a table may be defined by one another.  `AliasTable.expand` sorts a table and then
substitutes its aliases into each other's definitions, pass by pass.  The first pass goes over all
aliases, every later one over those the pass before has changed, and within a pass a definition that
has been rewritten is seen at once by the aliases behind it.  The passes end when one changes
nothing, and after as many passes as there are aliases in any case.

Aliases that do not come to an end are reported: those still changing at the last pass that was
allowed, those whose definition still refers to themselves, and those from which one of the latter
can be reached.  They keep the definitions they have.
-/

namespace ApiReference

set_option autoImplicit false

/-- What an expansion did. -/
structure ClosureReport where
  /-- The passes made, with the last one that changed nothing. -/
  passes : Nat
  /-- The number of aliases that some pass has changed. -/
  expanded : Nat
  /-- The keys reported as cyclic, in the order of the table. -/
  cycles : List String
deriving DecidableEq, Repr, Inhabited

namespace AliasTable

/-! ## Passes -/

/-- Substitute into the definition of one alias; the flag tells whether it changed. -/
def expandEntry (table : AliasTable) (key : String) : AliasTable × Bool :=
  match table.find? key with
  | none => (table, false)
  | some entry =>
    let (definition, changed) :=
      table.substitute (.definition key) entry.scope entry.definition
    (table.redefine key definition, changed)

/-- Expand the aliases with the given keys one after the other, and return with the table the keys
of those that changed. -/
def expandPass (table : AliasTable) : List String → AliasTable × List String
  | [] => (table, [])
  | key :: later =>
    let (advanced, changed) := table.expandEntry key
    let (final, keys) := advanced.expandPass later
    (final, if changed then key :: keys else keys)

/-- Where the passes have ended. -/
structure Settlement where
  table : AliasTable
  passes : Nat
  /-- The keys that some pass has changed. -/
  changed : List String
  /-- The keys that were still changing when no further pass was allowed. -/
  unsettled : List String
deriving DecidableEq, Repr

/-- Make passes over the keys that keep changing, at most as many as allowed. -/
def settle (table : AliasTable) : (allowed : Nat) → (worklist : List String) → Settlement
  | _, [] => ⟨table, 0, [], []⟩
  | 0, key :: later => ⟨table, 0, [], key :: later⟩
  | allowed + 1, key :: later =>
    let (advanced, changing) := table.expandPass (key :: later)
    let settlement := advanced.settle allowed changing
    { settlement with
      passes := settlement.passes + 1
      changed := changing ++ settlement.changed }

/-! ## Cycles -/

/-- Some token of the alias resolves to one whose key is accepted, other than in the spelling its
definition opens with. -/
def refersTo (table : AliasTable) (accepted : String → Bool) (entry : Alias) : Bool :=
  entry.definition.zipIdx.any fun (token, position) =>
    match table.resolve? token.text entry.scope with
    | none => false
    | some target =>
      accepted target.key && !spellsOpening entry.definition position target.definition

/-- The keys of the aliases that refer to themselves. -/
def selfReferring (table : AliasTable) : List String :=
  (table.entries.filter fun entry => table.refersTo (· = entry.key) entry).map Alias.key

/-- The keys outside a set of keys whose aliases refer into it. -/
def referringInto (table : AliasTable) (reached : List String) : List String :=
  (table.entries.filter fun entry =>
    !reached.contains entry.key && table.refersTo reached.contains entry).map Alias.key

/-- The aliases whose keys are not reached yet. -/
def unreached (table : AliasTable) (reached : List String) : List Alias :=
  table.entries.filter fun entry => !reached.contains entry.key

/-- Reaching further keys filters what is unreached. -/
theorem unreached_append (table : AliasTable) (reached further : List String) :
    table.unreached (reached ++ further) =
      (table.unreached reached).filter fun entry => !further.contains entry.key := by
  simp only [unreached, List.filter_filter]
  apply List.filter_congr
  intro entry _
  rw [List.contains_eq_mem, List.contains_eq_mem, List.contains_eq_mem, Bool.and_comm,
    ← Bool.not_or, ← Bool.decide_or]
  simp only [List.mem_append]

/-- What refers into a set without belonging to it leaves fewer aliases unreached. -/
theorem length_unreached_lt {table : AliasTable} {reached : List String}
    (more : table.referringInto reached ≠ []) :
    (table.unreached (reached ++ table.referringInto reached)).length <
      (table.unreached reached).length := by
  obtain ⟨key, member⟩ := List.exists_mem_of_ne_nil _ more
  obtain ⟨entry, filtered, rfl⟩ := List.mem_map.mp member
  obtain ⟨inTable, refers⟩ := List.mem_filter.mp filtered
  rw [unreached_append, List.length_filter_lt_length_iff_exists]
  refine ⟨entry, List.mem_filter.mpr ⟨inTable, (Bool.and_eq_true _ _ ▸ refers).1⟩, ?_⟩
  simpa using member

/-- Extend a set of keys by all that refer into it, until there are no more. -/
def reachingInto (table : AliasTable) (reached : List String) : List String :=
  if _more : table.referringInto reached ≠ [] then
    table.reachingInto (reached ++ table.referringInto reached)
  else reached
termination_by (table.unreached reached).length
decreasing_by exact length_unreached_lt ‹_›

/-- The keys of the aliases that refer to themselves, and of those that come to refer to one of
them. -/
def residualCycles (table : AliasTable) : List String :=
  table.reachingInto table.selfReferring

end AliasTable

/-! ## Expansion -/

/-- A table whose aliases are expanded, with the report on how that went. -/
structure ExpandedTable where
  table : AliasTable
  report : ClosureReport
deriving DecidableEq, Repr

namespace ExpandedTable

/-- The expansion of no alias at all. -/
def empty : ExpandedTable := ⟨.empty, ⟨0, 0, []⟩⟩

instance : Inhabited ExpandedTable := ⟨empty⟩

/-- Substitute the aliases in the type of a declaration; the flag tells whether any was. -/
def normalize (expanded : ExpandedTable) (scope : Scope) (tokens : List Token) :
    List Token × Bool :=
  expanded.table.substitute .declaration scope tokens

/-- The type of a declaration with its aliases substituted. -/
def normalized (expanded : ExpandedTable) (scope : Scope) (tokens : List Token) : List Token :=
  (expanded.normalize scope tokens).1

end ExpandedTable

namespace AliasTable

/-- The finding on a cyclic alias, given where the passes have ended. -/
def cycleFinding (settlement : Settlement) (entry : Alias) : Finding :=
  .aliasCycle entry.key (Token.joinedText entry.definition)
    (if entry.key ∈ settlement.unsettled then some settlement.passes else none)

/-- The aliases of a settled table that do not come to an end. -/
def cyclicEntries (settlement : Settlement) : List Alias :=
  let residual := settlement.table.residualCycles
  settlement.table.entries.filter fun entry =>
    settlement.unsettled.contains entry.key || residual.contains entry.key

/-- Sort a table and expand its aliases, with a finding for every alias that is cyclic. -/
def expand (table : AliasTable) : ExpandedTable × List Finding :=
  let sorted := table.sort
  let settlement := sorted.settle (max 1 sorted.size) sorted.keys
  let cyclic := cyclicEntries settlement
  let report : ClosureReport :=
    { passes := settlement.passes
      expanded := settlement.table.entries.countP (settlement.changed.contains ·.key)
      cycles := cyclic.map Alias.key }
  (⟨settlement.table, report⟩, cyclic.map (cycleFinding settlement))

end AliasTable

end ApiReference
