import ApiReference.Alias.Closure
import ApiReference.Proofs.Alias.Scan
import ApiReference.Proofs.Text.Names

/-!
# What passes keep

One expansion redefines one alias, and passes are nothing but expansions in a row.  So whatever a
single expansion keeps, all passes over a worklist keep (`settle_induction`).

Expansion keeps the aliases with their scopes, names and keys and their order (`declared_settle`),
and it keeps the definition of every alias that is not on the worklist
(`find?_settle_of_notMem`).  Names resolve to the same aliases before and after, up to their
definitions (`declared_resolve?`).  The definitions after an expansion are made of tokens that stood
in the definitions before it (`hasToken_of_expand`).
-/

set_option autoImplicit false

namespace ApiReference

/-- What is known of an alias without its definition. -/
def Alias.declared (entry : Alias) : Scope × String :=
  (entry.scope, entry.name)

/-- The key of an alias that is declared so. -/
def Alias.keyOfDeclared (declared : Scope × String) : String :=
  declared.1.qualify declared.2

namespace AliasTable

/-- The aliases of a table in its order, without their definitions. -/
def declared (table : AliasTable) : List (Scope × String) :=
  table.entries.map Alias.declared

/-! ## Redefinition -/

theorem declared_redefineAt (key : String) (definition : List Token) (entry : Alias) :
    (redefineAt key definition entry).declared = entry.declared := by
  unfold redefineAt
  split <;> rfl

@[simp]
theorem declared_redefine (table : AliasTable) (key : String) (definition : List Token) :
    (table.redefine key definition).declared = table.declared := by
  rw [declared, declared, entries_redefine, List.map_map]
  exact List.map_congr_left fun entry _ => declared_redefineAt key definition entry

theorem keys_eq_map_declared (table : AliasTable) :
    table.keys = table.declared.map Alias.keyOfDeclared := by
  rw [keys, declared, List.map_map]
  rfl

/-- Redefining an alias does not touch the others. -/
theorem find?_redefine_of_ne {table : AliasTable} {key other : String} {definition : List Token}
    (different : other ≠ key) :
    (table.redefine key definition).find? other = table.find? other := by
  rw [find?_redefine]
  cases found : table.find? other with
  | none => rfl
  | some entry =>
    have otherKey : entry.key ≠ key := (find?_some found).2 ▸ different
    rw [Option.map_some, redefineAt, if_neg otherKey]

/-- Redefining an alias as it is leaves the table as it is. -/
theorem redefine_of_find? {table : AliasTable} {key : String} {entry : Alias}
    (found : table.find? key = some entry) : table.redefine key entry.definition = table := by
  refine ext ((table.entries_redefine key entry.definition).trans ?_)
  calc table.entries.map (redefineAt key entry.definition) = table.entries.map id := by
        refine List.map_congr_left fun other member => ?_
        unfold redefineAt
        split
        · rename_i sameKey
          rw [← sameKey, find?_key member] at found
          obtain rfl := Option.some.inj found
          rfl
        · rfl
    _ = table.entries := List.map_id _

/-! ## Declarations decide what names mean -/

theorem declared_find? (table : AliasTable) (key : String) :
    (table.find? key).map Alias.declared =
      table.declared.find? (fun declared => Alias.keyOfDeclared declared = key) := by
  rw [find?_eq, declared, List.find?_map]
  rfl

/-- A name resolves to aliases that are declared alike in tables that are declared alike. -/
theorem declared_resolve? {table other : AliasTable} (alike : table.declared = other.declared)
    (name : String) (scope : Scope) :
    (table.resolve? name scope).map Alias.declared =
      (other.resolve? name scope).map Alias.declared := by
  rw [resolve?, resolve?, List.map_findSome?, List.map_findSome?]
  congr 1
  funext key
  rw [Function.comp_apply, Function.comp_apply, declared_find?, declared_find?, alike]

theorem key_eq_of_declared_eq {entry other : Alias} (alike : entry.declared = other.declared) :
    entry.key = other.key :=
  congrArg Alias.keyOfDeclared alike

/-- In tables that are declared alike, a name resolves to aliases of the same key. -/
theorem resolve?_of_declared {table final : AliasTable}
    (alike : final.declared = table.declared) {name : String} {scope : Scope} {target : Alias}
    (resolved : table.resolve? name scope = some target) :
    ∃ redefined, final.resolve? name scope = some redefined ∧ redefined.key = target.key ∧
      final.find? target.key = some redefined := by
  have sameName := declared_resolve? alike name scope
  rw [resolved, Option.map_some, Option.map_eq_some_iff] at sameName
  obtain ⟨redefined, resolvedFinally, sameDeclared⟩ := sameName
  have sameKey := key_eq_of_declared_eq sameDeclared
  refine ⟨redefined, resolvedFinally, sameKey, ?_⟩
  rw [← sameKey]
  exact find?_key (mem_of_resolve? resolvedFinally)

/-! ## One expansion -/

theorem expandEntry_of_find? {table : AliasTable} {key : String} {entry : Alias}
    (found : table.find? key = some entry) :
    table.expandEntry key =
      (table.redefine key
          (table.substitute (.definition key) entry.scope entry.definition).1,
        (table.substitute (.definition key) entry.scope entry.definition).2) := by
  rw [expandEntry, found]

theorem expandEntry_of_find?_eq_none {table : AliasTable} {key : String}
    (missing : table.find? key = none) : table.expandEntry key = (table, false) := by
  rw [expandEntry, missing]

@[simp]
theorem declared_expandEntry (table : AliasTable) (key : String) :
    (table.expandEntry key).1.declared = table.declared := by
  cases found : table.find? key with
  | none => rw [expandEntry_of_find?_eq_none found]
  | some entry => rw [expandEntry_of_find? found, declared_redefine]

theorem find?_expandEntry_of_ne {table : AliasTable} {key other : String}
    (different : other ≠ key) :
    (table.expandEntry key).1.find? other = table.find? other := by
  cases found : table.find? key with
  | none => rw [expandEntry_of_find?_eq_none found]
  | some entry => rw [expandEntry_of_find? found, find?_redefine_of_ne different]

/-- An expansion reports nothing exactly if the definition is quiet. -/
theorem expandEntry_eq_false_iff {table : AliasTable} {entry : Alias}
    (member : entry ∈ table.entries) :
    (table.expandEntry entry.key).2 = false ↔
      table.Quiet entry.key entry.scope entry.definition := by
  rw [expandEntry_of_find? (find?_key member)]
  exact quiet_iff

/-- An expansion that reports nothing leaves the table as it is. -/
theorem expandEntry_of_eq_false {table : AliasTable} {key : String}
    (quiet : (table.expandEntry key).2 = false) : (table.expandEntry key).1 = table := by
  cases found : table.find? key with
  | none => rw [expandEntry_of_find?_eq_none found]
  | some entry =>
    rw [expandEntry_of_find? found] at quiet ⊢
    rw [substitute_of_quiet (quiet_iff.mp quiet), redefine_of_find? found]

/-- An expansion makes up no token. -/
theorem hasToken_of_expandEntry {table : AliasTable} {key : String} {token : Token}
    (has : (table.expandEntry key).1.HasToken token) : table.HasToken token := by
  cases found : table.find? key with
  | none => rwa [expandEntry_of_find?_eq_none found] at has
  | some entry =>
    rw [expandEntry_of_find? found] at has
    obtain ⟨redefined, member, inDefinition⟩ := has
    rw [entries_redefine] at member
    obtain ⟨other, inTable, rfl⟩ := List.mem_map.mp member
    unfold redefineAt at inDefinition
    split at inDefinition
    · rcases mem_scanFrom_definition inDefinition with kept | elsewhere
      · exact ⟨entry, (find?_some found).1, kept⟩
      · exact elsewhere
    · exact ⟨other, inTable, inDefinition⟩

/-! ## Passes -/

theorem expandPass_cons (table : AliasTable) (key : String) (later : List String) :
    table.expandPass (key :: later) =
      (((table.expandEntry key).1.expandPass later).1,
        if (table.expandEntry key).2 then key :: ((table.expandEntry key).1.expandPass later).2
        else ((table.expandEntry key).1.expandPass later).2) := rfl

/-- What a pass has changed was on its worklist. -/
theorem expandPass_sublist (table : AliasTable) (worklist : List String) :
    (table.expandPass worklist).2.Sublist worklist := by
  induction worklist generalizing table with
  | nil => exact List.Sublist.slnil
  | cons key later ih =>
    rw [expandPass_cons]
    dsimp only
    split
    · exact (ih _).cons_cons key
    · exact (ih _).cons key

/-- What every expansion of a key on the worklist keeps, a pass keeps. -/
theorem expandPass_induction {motive : AliasTable → Prop} {worklist : List String}
    (step : ∀ table, ∀ key ∈ worklist, motive table → motive (table.expandEntry key).1)
    {table : AliasTable} (start : motive table) : motive (table.expandPass worklist).1 := by
  induction worklist generalizing table with
  | nil => exact start
  | cons key later ih =>
    rw [expandPass_cons]
    refine ih (fun other next member => step other next (List.mem_cons_of_mem _ member)) ?_
    exact step table key List.mem_cons_self start

/-- What a quiet scan shows of an alias, and the expansions of others keep, holds of every alias
that a pass has not changed, if it held of those that are not on the worklist. -/
theorem expandPass_unchanged {invariant property : AliasTable → Prop} {key : String}
    {worklist : List String}
    (step : ∀ table other, invariant table → invariant (table.expandEntry other).1)
    (quiet : ∀ table, invariant table → (table.expandEntry key).2 = false → property table)
    (kept : ∀ table other, invariant table → key ≠ other → property table →
      property (table.expandEntry other).1)
    {table : AliasTable} (start : invariant table) (off : key ∉ worklist → property table)
    (unchanged : key ∉ (table.expandPass worklist).2) : property (table.expandPass worklist).1 := by
  induction worklist generalizing table with
  | nil => exact off List.not_mem_nil
  | cons first later ih =>
    rw [expandPass_cons] at unchanged ⊢
    refine ih (step table first start) (fun absent => ?_) (fun changed => unchanged ?_)
    · by_cases same : key = first
      · subst same
        cases changed : (table.expandEntry key).2 with
        | true => simp [changed] at unchanged
        | false =>
          rw [expandEntry_of_eq_false changed]
          exact quiet table start changed
      · exact kept table first start same (off (List.not_mem_cons_of_ne_of_not_mem same absent))
    · dsimp only
      split
      · exact List.mem_cons_of_mem first changed
      · exact changed

/-- The worklist is empty, or no pass is allowed, or a pass is made and the others follow on what it
has changed. -/
@[elab_as_elim]
theorem worklist_induction {motive : AliasTable → Nat → List String → Prop}
    (done : ∀ table allowed, motive table allowed [])
    (stopped : ∀ table key later, motive table 0 (key :: later))
    (pass : ∀ table allowed key later,
      motive (table.expandPass (key :: later)).1 allowed (table.expandPass (key :: later)).2 →
        motive table (allowed + 1) (key :: later))
    (table : AliasTable) (allowed : Nat) (worklist : List String) :
    motive table allowed worklist := by
  induction allowed generalizing table worklist with
  | zero =>
    cases worklist with
    | nil => exact done table 0
    | cons key later => exact stopped table key later
  | succ allowed ih =>
    cases worklist with
    | nil => exact done table (allowed + 1)
    | cons key later => exact pass table allowed key later (ih _ _)

@[simp]
theorem settle_nil (table : AliasTable) (allowed : Nat) :
    table.settle allowed [] = ⟨table, 0, [], []⟩ := by
  cases allowed <;> rfl

/-- What every expansion of a key on the worklist keeps, all passes keep. -/
theorem settle_induction {motive : AliasTable → Prop} {worklist : List String}
    (step : ∀ table, ∀ key ∈ worklist, motive table → motive (table.expandEntry key).1)
    {table : AliasTable} (allowed : Nat) (start : motive table) :
    motive (table.settle allowed worklist).table := by
  induction table, allowed, worklist using worklist_induction with
  | done table allowed =>
    rw [settle_nil]
    exact start
  | stopped table key later => exact start
  | pass table allowed key later ih =>
    have changing := expandPass_sublist table (key :: later)
    exact ih (fun other next member => step other next (changing.subset member))
      (expandPass_induction step start)

/-- The passes change and leave unsettled only what is on the worklist. -/
theorem settle_subset (table : AliasTable) (allowed : Nat) (worklist : List String) :
    (table.settle allowed worklist).changed ⊆ worklist ∧
      (table.settle allowed worklist).unsettled ⊆ worklist := by
  induction table, allowed, worklist using worklist_induction with
  | done table allowed => simp
  | stopped table key later => simp [settle]
  | pass table allowed key later ih =>
    have changing := (expandPass_sublist table (key :: later)).subset
    obtain ⟨changed, unsettled⟩ := ih
    constructor
    · exact List.append_subset.mpr ⟨changing, fun _ member => changing (changed member)⟩
    · exact fun _ member => changing (unsettled member)

@[simp]
theorem declared_expandPass (table : AliasTable) (worklist : List String) :
    (table.expandPass worklist).1.declared = table.declared :=
  expandPass_induction (motive := fun other => other.declared = table.declared)
    (fun other key _ same => (declared_expandEntry other key).trans same) rfl

@[simp]
theorem declared_settle (table : AliasTable) (allowed : Nat) (worklist : List String) :
    (table.settle allowed worklist).table.declared = table.declared :=
  settle_induction (motive := fun other => other.declared = table.declared)
    (fun other key _ same => (declared_expandEntry other key).trans same) allowed rfl

@[simp]
theorem keys_settle (table : AliasTable) (allowed : Nat) (worklist : List String) :
    (table.settle allowed worklist).table.keys = table.keys := by
  rw [keys_eq_map_declared, keys_eq_map_declared, declared_settle]

/-- A pass keeps the aliases that are not on its worklist. -/
theorem find?_expandPass_of_notMem {table : AliasTable} {key : String} {worklist : List String}
    (absent : key ∉ worklist) : (table.expandPass worklist).1.find? key = table.find? key := by
  refine expandPass_induction (motive := fun other => other.find? key = table.find? key) ?_ rfl
  intro other next member same
  rw [find?_expandEntry_of_ne (ne_of_mem_of_not_mem member absent).symm, same]

/-- The passes keep the aliases that are not on the worklist. -/
theorem find?_settle_of_notMem {table : AliasTable} {key : String} {worklist : List String}
    (allowed : Nat) (absent : key ∉ worklist) :
    (table.settle allowed worklist).table.find? key = table.find? key := by
  refine settle_induction (motive := fun other => other.find? key = table.find? key) ?_ allowed rfl
  intro other next member same
  rw [find?_expandEntry_of_ne (ne_of_mem_of_not_mem member absent).symm, same]

/-! ## The whole expansion -/

theorem entries_sort_perm (table : AliasTable) : table.sort.entries.Perm table.entries :=
  List.mergeSort_perm table.entries precedes

/-- The definitions after an expansion are made of tokens that stood in the definitions before. -/
theorem hasToken_of_expand {table : AliasTable} {token : Token}
    (has : table.expand.1.table.HasToken token) : table.HasToken token := by
  have kept : ∀ other : Token, table.expand.1.table.HasToken other → table.sort.HasToken other :=
    settle_induction (motive := fun later => ∀ other, later.HasToken other →
      table.sort.HasToken other) (fun later key _ earlier other has =>
        earlier other (hasToken_of_expandEntry has)) _ (fun _ has => has)
  obtain ⟨entry, member, inDefinition⟩ := kept token has
  exact ⟨entry, (entries_sort_perm table).mem_iff.mp member, inDefinition⟩

end AliasTable

end ApiReference
