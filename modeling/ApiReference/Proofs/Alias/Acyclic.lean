import ApiReference.Proofs.Alias.Cycles

/-!
# Tables without cycles

If no references lead back to their start, then an alias refers only to aliases below it, where the
rank of an alias is the number of those that it leads to (`exists_ranked`).  In a table where
moreover every definition refers at most once, an expansion that changes a definition puts all its
references one step further down, so that the rank of its alias can be lowered
(`Unfolding.expandEntry`).  The ranks start below the number of aliases and fall with every pass.
So the worklist is empty after as many passes as there are aliases, at the latest
(`Unfolding.settle`).

An expansion that changes nothing leaves a definition finished: what it still refers to is an alias
without references, whose definition stands in it already (`finished_of_quiet`).  Later expansions
keep that, and so it holds of the whole table in the end (`expand_of_acyclic`).
-/

set_option autoImplicit false

namespace ApiReference

namespace AliasTable

open Relation

/-- The token resolves to some alias. -/
def resolves (table : AliasTable) (scope : Scope) (token : Token) : Bool :=
  (table.meaning? scope token.text).isSome

/-- What the definition of the alias refers to has no references itself and stands in the
definition already. -/
def Finished (table : AliasTable) (scope : Scope) (key : String) : Prop :=
  ∀ token ∈ table.definitionOf key, ∀ target, table.meaning? scope token.text = some target →
    (∀ inner ∈ table.definitionOf target, table.resolves scope inner = false) ∧
      Token.occursIn (table.definitionOf target) (table.definitionOf key) = true

/-- A table of one scope whose definitions refer at most once, and to aliases of lower rank. -/
structure Unfolding (table : AliasTable) (scope : Scope) (rank : String → Nat) : Prop where
  shared : table.SharesScope scope
  single : ∀ key, (table.definitionOf key).countP (table.resolves scope) ≤ 1
  lower : ∀ key target, table.Refers key target → rank target < rank key

variable {table : AliasTable} {scope : Scope} {key scanned target : String} {rank : String → Nat}
  {passed rest before after : List Token} {token : Token}

/-! ## Definitions that refer at most once -/

theorem resolves_eq_true_iff :
    table.resolves scope token = true ↔ ∃ target, table.meaning? scope token.text = some target :=
  Option.isSome_iff_exists

theorem resolves_expandEntry (table : AliasTable) (key : String) :
    (table.expandEntry key).1.resolves = table.resolves := by
  funext scope token
  rw [resolves, resolves, meaning?_expandEntry]

/-- Around the only token that is counted, none is. -/
theorem countP_around {counts : Token → Bool}
    (single : (before ++ token :: after).countP counts ≤ 1) (counted : counts token = true) :
    before.countP counts = 0 ∧ after.countP counts = 0 := by
  simp only [List.countP_append, List.countP_cons, counted, if_true] at single
  omega

theorem eq_of_countP_le_one {counts : Token → Bool} {inner : Token}
    (single : (before ++ token :: after).countP counts ≤ 1) (counted : counts token = true)
    (inside : inner ∈ before ++ token :: after) (countedToo : counts inner = true) :
    inner = token := by
  obtain ⟨noneBefore, noneAfter⟩ := countP_around single counted
  rcases List.mem_append.mp inside with early | atOrBehind
  · exact absurd countedToo (List.countP_eq_zero.mp noneBefore inner early)
  · refine (List.mem_cons.mp atOrBehind).resolve_right fun behind => ?_
    exact List.countP_eq_zero.mp noneAfter inner behind countedToo

/-- A walk over a definition that refers at most once changes nothing, or puts one definition in the
place of the token that refers. -/
theorem walkBehind_of_single (key : String) (passed : List Token)
    (single : rest.countP (table.resolves scope) ≤ 1) :
    table.walkBehind (.definition key) scope passed rest = (rest, false) ∨
      ∃ before token after target, rest = before ++ token :: after ∧
        table.meaning? scope token.text = some target ∧
        table.walkBehind (.definition key) scope passed rest =
          (before ++ table.definitionOf target ++ after, true) := by
  induction passed, rest using walkBehind_induction table (.definition key) scope with
  | ended passed => exact Or.inl rfl
  | hit passed first rest entry isHit ih =>
    have means : table.meaning? scope first.text = some entry.key :=
      (meaning?_of_hit_behind isHit).1
    have noneBehind : rest.countP (table.resolves scope) = 0 := by
      rw [List.countP_cons, if_pos (resolves_eq_true_iff.mpr ⟨_, means⟩)] at single
      omega
    rcases ih (by omega) with quiet | ⟨before, token, after, target, rfl, meansToo, _⟩
    · refine Or.inr ⟨[], first, rest, entry.key, rfl, means, ?_⟩
      rw [walkBehind_hit isHit, quiet, (meaning?_of_hit_behind isHit).2]
      rfl
    · have counted := List.countP_eq_zero.mp noneBehind token (by simp)
      exact absurd (resolves_eq_true_iff.mpr ⟨_, meansToo⟩) counted
  | pass passed first rest noHit ih =>
    have fewer : rest.countP (table.resolves scope) ≤ 1 :=
      (List.sublist_cons_self first rest).countP_le.trans single
    rw [walkBehind_pass noHit]
    rcases ih fewer with quiet | ⟨before, token, after, target, rfl, means, changed⟩
    · rw [quiet]
      exact Or.inl rfl
    · rw [changed]
      exact Or.inr ⟨first :: before, token, after, target, rfl, means, rfl⟩

/-- A definition without references stays as it is. -/
theorem definitionOf_expandEntry_of_unresolved (shared : table.SharesScope scope)
    (unresolved : ∀ inner ∈ table.definitionOf target, table.resolves scope inner = false) :
    (table.expandEntry scanned).1.definitionOf target = table.definitionOf target := by
  by_cases same : target = scanned
  · subst same
    have none : (table.definitionOf target).countP (table.resolves scope) = 0 :=
      List.countP_eq_zero.mpr fun inner inside => by simp [unresolved inner inside]
    rw [(definitionOf_expandEntry shared target).1]
    rcases walkBehind_of_single target [] (none.trans_le (Nat.zero_le 1)) with
      quiet | ⟨before, token, after, middle, split, means, _⟩
    · rw [quiet]
    · have found := unresolved token (by simp [split])
      rw [resolves_eq_true_iff.mpr ⟨middle, means⟩] at found
      contradiction
  · exact definitionOf_expandEntry_of_ne same

/-! ## Ranks -/

/-- Where no references lead back to their start, each alias refers to aliases of lower rank, and
the ranks are smaller than the number of aliases. -/
theorem exists_ranked (acyclic : ∀ key, ¬ TransGen table.Refers key key) :
    ∃ rank : String → Nat, (∀ key target, table.Refers key target → rank target < rank key) ∧
      ∀ key ∈ table.keys, rank key < table.size := by
  refine ⟨fun key => (table.below key).card, fun key target refers => ?_, fun key isKey => ?_⟩
  · apply Finset.card_lt_card
    refine ⟨fun other member => ?_, fun contains => ?_⟩
    · exact mem_below.mpr (.head refers (mem_below.mp member))
    · exact acyclic target (mem_below.mp (contains (mem_below.mpr (.single refers))))
  · calc (table.below key).card < table.keys.toFinset.card := by
          apply Finset.card_lt_card
          refine ⟨table.below_subset key, fun contains => ?_⟩
          exact acyclic key (mem_below.mp (contains (List.mem_toFinset.mpr isKey)))
      _ ≤ table.size := table.card_keys_le

/-- The ranks, with that of one alias lowered by one. -/
def lowerAt (rank : String → Nat) (key : String) : String → Nat :=
  Function.update rank key (rank key - 1)

@[simp]
theorem lowerAt_self (rank : String → Nat) (key : String) : lowerAt rank key key = rank key - 1 :=
  Function.update_self ..

theorem lowerAt_of_ne (different : target ≠ key) : lowerAt rank key target = rank target :=
  Function.update_of_ne different ..

theorem lowerAt_le (rank : String → Nat) (key target : String) :
    lowerAt rank key target ≤ rank target := by
  by_cases same : target = key
  · rw [same, lowerAt_self]
    exact Nat.sub_le _ _
  · exact (lowerAt_of_ne same).le

namespace Unfolding

theorem not_refers_self (unfolding : table.Unfolding scope rank) : ¬ table.Refers key key :=
  fun refers => (unfolding.lower key key refers).false

/-- An expansion that changes a definition puts the references of the alias it referred to in the
place of that reference. -/
theorem expandEntry_cases (unfolding : table.Unfolding scope rank) (key : String) :
    (table.expandEntry key).2 = false ∨
      ∃ target, table.Refers key target ∧
        ((table.expandEntry key).1.definitionOf key).countP (table.resolves scope) ≤ 1 ∧
        ∀ further, (table.expandEntry key).1.Refers key further → table.Refers target further := by
  obtain ⟨result, changed⟩ := definitionOf_expandEntry unfolding.shared key
  rcases walkBehind_of_single key [] (unfolding.single key) with
    quiet | ⟨before, token, after, target, split, means, walked⟩
  · rw [quiet] at changed
    exact Or.inl changed
  · have single := unfolding.single key
    rw [split] at single
    obtain ⟨noneBefore, noneAfter⟩ :=
      countP_around single (resolves_eq_true_iff.mpr ⟨target, means⟩)
    rw [walked] at result
    refine Or.inr ⟨target, ?_, ?_, fun further refersFurther => ?_⟩
    · exact (refers_iff unfolding.shared).mpr ⟨token, by simp [split], means⟩
    · rw [result, List.countP_append, List.countP_append, noneBefore, noneAfter]
      simpa using unfolding.single target
    · obtain ⟨inner, inside, aims⟩ := (refers_iff (unfolding.shared.expandEntry key)).mp
        refersFurther
      rw [result] at inside
      rw [meaning?_expandEntry] at aims
      have counted := resolves_eq_true_iff.mpr ⟨further, aims⟩
      refine (refers_iff unfolding.shared).mpr ⟨inner, ?_, aims⟩
      rcases List.mem_append.mp inside with front | behind
      · rcases List.mem_append.mp front with early | spliced
        · exact absurd counted (List.countP_eq_zero.mp noneBefore inner early)
        · exact spliced
      · exact absurd counted (List.countP_eq_zero.mp noneAfter inner behind)

/-- An expansion that changes a definition lowers the rank of its alias, and no expansion raises a
rank. -/
theorem expandEntry (unfolding : table.Unfolding scope rank) (key : String) :
    ∃ lowered : String → Nat, (table.expandEntry key).1.Unfolding scope lowered ∧
      (∀ other, lowered other ≤ rank other) ∧
      ((table.expandEntry key).2 = true → lowered key < rank key) := by
  rcases unfolding.expandEntry_cases key with quiet | ⟨target, refers, single, onward⟩
  · refine ⟨rank, ?_, fun _ => Nat.le_refl _, fun contrary => ?_⟩
    · rwa [expandEntry_of_eq_false quiet]
    · rw [quiet] at contrary
      contradiction
  · have targetLower := unfolding.lower key target refers
    refine ⟨lowerAt rank key, ⟨unfolding.shared.expandEntry key, ?_, ?_⟩, lowerAt_le rank key, ?_⟩
    · intro other
      rw [resolves_expandEntry]
      by_cases same : other = key
      · rwa [same]
      · rw [definitionOf_expandEntry_of_ne same]
        exact unfolding.single other
    · intro other further refersFurther
      have le := lowerAt_le rank key further
      by_cases same : other = key
      · subst same
        -- What is referred to now was referred to by the target, two steps down.
        have furtherLower := unfolding.lower target further (onward further refersFurther)
        rw [lowerAt_self]
        omega
      · rw [refers_expandEntry_of_ne unfolding.shared same] at refersFurther
        rw [lowerAt_of_ne same]
        exact le.trans_lt (unfolding.lower other further refersFurther)
    · intro _
      rw [lowerAt_self]
      omega

/-- A pass lowers the rank of all that it changes. -/
theorem expandPass (unfolding : table.Unfolding scope rank) (worklist : List String) :
    ∃ lowered : String → Nat, (table.expandPass worklist).1.Unfolding scope lowered ∧
      (∀ other, lowered other ≤ rank other) ∧
      ∀ other ∈ (table.expandPass worklist).2, lowered other < rank other := by
  induction worklist generalizing table rank with
  | nil => exact ⟨rank, unfolding, fun _ => Nat.le_refl _, fun other member => by cases member⟩
  | cons first later ih =>
    obtain ⟨middle, unfoldingLater, middleLe, lowersFirst⟩ := unfolding.expandEntry first
    obtain ⟨lowered, unfoldingEnd, loweredLe, lowersLater⟩ := ih unfoldingLater
    rw [expandPass_cons]
    refine ⟨lowered, unfoldingEnd, fun other => (loweredLe other).trans (middleLe other), ?_⟩
    intro other member
    dsimp only at member
    split at member
    · rename_i changed
      rcases List.mem_cons.mp member with rfl | memberLater
      · exact (loweredLe other).trans_lt (lowersFirst changed)
      · exact (lowersLater other memberLater).trans_le (middleLe other)
    · exact (lowersLater other member).trans_le (middleLe other)

/-! ## Finished definitions -/

/-- A scan that changes nothing leaves its definition finished. -/
theorem finished_of_quiet (unfolding : table.Unfolding scope rank)
    (quiet : (table.expandEntry key).2 = false) : table.Finished scope key := by
  intro token inside target means
  have refers : table.Refers key target := (refers_iff unfolding.shared).mpr ⟨token, inside, means⟩
  obtain ⟨entry, member, rfl⟩ := List.mem_map.mp (mem_keys_of_refers refers).1
  rw [definitionOf_key member] at inside ⊢
  obtain ⟨before, after, split⟩ := List.append_of_mem inside
  obtain ⟨aim, resolved, rfl⟩ := meaning?_eq_some_iff.mp means
  have still := (expandEntry_eq_false_iff member).mp quiet before.length
  rw [split, unfolding.shared entry member] at still
  rw [definitionOf_of_resolve? resolved]
  -- The target does not refer to itself, so that only its definition can hold the token back.
  have noSelf : ∀ inner ∈ aim.definition, inner.text ≠ token.text := by
    intro inner innerInside sameText
    refine unfolding.not_refers_self ((refers_iff unfolding.shared).mpr ⟨inner, ?_, sameText ▸ means⟩)
    rwa [definitionOf_of_resolve? resolved]
  rcases guard?_ne_none_iff.mp (isHit_behind_eq_false_iff.mp still aim resolved) with
    own | occurs | spells
  · exact absurd (Option.some.inj own ▸ refers) unfolding.not_refers_self
  · refine ⟨fun inner innerInside => ?_, split ▸ occurs⟩
    rw [← Bool.not_eq_true]
    intro counted
    have single := unfolding.single entry.key
    rw [definitionOf_key member, split] at single
    obtain ⟨_, front, back, window⟩ := Token.occursIn_iff.mp occurs
    have inWindow : inner ∈ before ++ token :: after := by
      rw [window]
      exact List.mem_append_left _ (List.mem_append_right _ innerInside)
    have isToken := eq_of_countP_le_one single (resolves_eq_true_iff.mpr ⟨_, means⟩) inWindow counted
    exact noSelf inner innerInside (congrArg Token.text isToken)
  · obtain ⟨third, isThird, sameText⟩ := exists_third_of_spellsOpening spells
    exact absurd sameText (noSelf third (List.mem_of_getElem? isThird))

end Unfolding

/-- A finished definition stays so while others are expanded. -/
theorem Finished.expandEntry (shared : table.SharesScope scope)
    (finished : table.Finished scope key) (different : key ≠ scanned) :
    (table.expandEntry scanned).1.Finished scope key := by
  intro token inside target means
  rw [meaning?_expandEntry] at means
  rw [definitionOf_expandEntry_of_ne different] at inside ⊢
  obtain ⟨unresolved, occurs⟩ := finished token inside target means
  rw [definitionOf_expandEntry_of_unresolved shared unresolved, resolves_expandEntry]
  exact ⟨unresolved, occurs⟩

/-! ## The passes -/

/-- Passes over aliases whose ranks are smaller than the number of passes come to an end, and leave
all definitions finished. -/
theorem Unfolding.settle {allowed : Nat} {worklist : List String}
    (unfolding : table.Unfolding scope rank) (small : ∀ key ∈ worklist, rank key < allowed)
    (finished : ∀ key, key ∉ worklist → table.Finished scope key) :
    (table.settle allowed worklist).unsettled = [] ∧
      (∃ lowered, (table.settle allowed worklist).table.Unfolding scope lowered) ∧
      ∀ key, (table.settle allowed worklist).table.Finished scope key := by
  induction table, allowed, worklist using worklist_induction generalizing rank with
  | done table allowed =>
    rw [settle_nil]
    exact ⟨rfl, ⟨rank, unfolding⟩, fun key => finished key List.not_mem_nil⟩
  | stopped table key later => exact absurd (small key List.mem_cons_self) (Nat.not_lt_zero _)
  | pass table allowed first later ih =>
    obtain ⟨lowered, unfoldingEnd, _, lowers⟩ := unfolding.expandPass (first :: later)
    refine ih unfoldingEnd (fun key changed => ?_) (fun key unchanged => ?_)
    · have listed := (expandPass_sublist table (first :: later)).subset changed
      have before := small key listed
      have fallen := lowers key changed
      omega
    · refine @expandPass_unchanged (fun later => ∃ rank, later.Unfolding scope rank)
        (fun later => later.Finished scope key) key _ ?_ ?_ ?_ table ⟨rank, unfolding⟩
        (finished key) unchanged
      · rintro later other ⟨rankLater, unfoldingLater⟩
        obtain ⟨lower, unfoldingNext, _⟩ := unfoldingLater.expandEntry other
        exact ⟨lower, unfoldingNext⟩
      · rintro later ⟨rankLater, unfoldingLater⟩ quiet
        exact unfoldingLater.finished_of_quiet quiet
      · rintro later other ⟨rankLater, unfoldingLater⟩ different known
        exact known.expandEntry unfoldingLater.shared different

theorem passes_settle_le (table : AliasTable) (allowed : Nat) (worklist : List String) :
    (table.settle allowed worklist).passes ≤ allowed := by
  induction table, allowed, worklist using worklist_induction with
  | done table allowed => simp
  | stopped table key later => exact Nat.le_refl 0
  | pass table allowed first later ih => exact Nat.succ_le_succ ih

/-- An expansion makes at most as many passes as there are aliases. -/
theorem passes_expand_le (table : AliasTable) : table.expand.1.report.passes ≤ table.size := by
  have sameSize : table.sort.size = table.size := table.entries_sort_perm.length_eq
  have passes : table.expand.1.report.passes =
      (table.sort.settle (max 1 table.sort.size) table.sort.keys).passes := rfl
  rw [passes]
  cases keys : table.sort.keys with
  | nil => simp
  | cons first later =>
    have le := passes_settle_le table.sort (max 1 table.sort.size) (first :: later)
    have nonempty : table.sort.size = later.length + 1 := by
      rw [← List.length_cons (a := first), ← keys]
      exact (List.length_map _).symm
    omega

/-! ## The whole expansion -/

/-- All aliases of the table refer at most once. -/
def RefersOnce (table : AliasTable) : Prop :=
  ∀ entry ∈ table.entries, entry.definition.countP (table.resolves entry.scope) ≤ 1

theorem exists_unfolding (shared : table.SharesScope scope) (once : table.RefersOnce)
    (acyclic : ∀ key, ¬ TransGen table.Refers key key) :
    ∃ rank, table.sort.Unfolding scope rank ∧ ∀ key ∈ table.sort.keys, rank key < table.sort.size := by
  obtain ⟨rank, lower, small⟩ := exists_ranked (refers_sort table ▸ acyclic)
  refine ⟨rank, ⟨shared.sort, fun key => ?_, lower⟩, small⟩
  cases found : table.sort.find? key with
  | none =>
    rw [definitionOf, found]
    exact Nat.zero_le 1
  | some entry =>
    obtain ⟨member, rfl⟩ := find?_some found
    have inTable := table.entries_sort_perm.mem_iff.mp member
    have sameResolves : table.sort.resolves = table.resolves := by
      funext scope token
      rw [resolves, resolves, meaning?_sort]
    rw [definitionOf_key member, sameResolves, ← shared entry inTable]
    exact once entry inTable

/-- The expansion of a table without cycles comes to an end, and leaves all definitions finished. -/
theorem unfolding_expand (shared : table.SharesScope scope) (once : table.RefersOnce)
    (acyclic : ∀ key, ¬ TransGen table.Refers key key) :
    table.settlement.unsettled = [] ∧
      (∃ rank, table.expand.1.table.Unfolding scope rank) ∧
      ∀ key, table.expand.1.table.Finished scope key := by
  obtain ⟨rank, unfolding, small⟩ := exists_unfolding shared once acyclic
  refine unfolding.settle (fun key isKey => ?_) (fun key absent => ?_)
  · exact (small key isKey).trans_le (Nat.le_max_right 1 _)
  · intro token inside
    rw [definitionOf, find?_eq_none_iff.mpr absent] at inside
    cases inside

/-- A table of one scope without cycles of references, in which every definition refers at most
once, is expanded without cycles, in at most as many passes as there are aliases.  What resolves in
the result resolves to an alias without references, whose definition stands around the token
already. -/
theorem expand_of_acyclic (shared : table.SharesScope scope) (once : table.RefersOnce)
    (acyclic : ∀ key, ¬ TransGen table.Refers key key) :
    table.expand.1.report.cycles = [] ∧ table.expand.2 = [] ∧
      table.expand.1.report.passes ≤ table.size ∧
      ∀ entry ∈ table.expand.1.table.entries, ∀ token ∈ entry.definition, ∀ target,
        table.expand.1.table.resolve? token.text entry.scope = some target →
          (∀ inner ∈ target.definition,
            table.expand.1.table.resolve? inner.text target.scope = none) ∧
          Token.occursIn target.definition entry.definition = true := by
  obtain ⟨settled, ⟨rank, unfolding⟩, finished⟩ := unfolding_expand shared once acyclic
  have noCycles : table.expand.1.report.cycles = [] := by
    refine List.eq_nil_iff_forall_not_mem.mpr fun key reported => ?_
    rcases mem_cycles_iff.mp reported with unsettled | residual
    · rw [settled] at unsettled
      cases unsettled
    · obtain ⟨turn, _, self⟩ := mem_residualCycles.mp residual
      exact unfolding.not_refers_self self.refers
  refine ⟨noCycles, ?_, table.passes_expand_le, ?_⟩
  · have noEntries : cyclicEntries table.settlement = [] := by
      rwa [cycles_expand, List.map_eq_nil_iff] at noCycles
    exact List.map_eq_nil_iff.mpr noEntries
  · intro entry member token inside target resolved
    have targetMember := mem_of_resolve? resolved
    rw [unfolding.shared entry member] at resolved
    rw [← definitionOf_key member] at inside
    obtain ⟨unresolved, occurs⟩ := finished entry.key token inside target.key
      (meaning?_eq_some_iff.mpr ⟨target, resolved, rfl⟩)
    rw [definitionOf_key targetMember] at unresolved occurs
    rw [definitionOf_key member] at occurs
    refine ⟨fun inner innerInside => ?_, occurs⟩
    have means := unresolved inner innerInside
    rw [resolves, meaning?, Option.isSome_map] at means
    rw [unfolding.shared target targetMember]
    exact Option.isNone_iff_eq_none.mp (Option.isSome_eq_false_iff.mp means)

/-- `A` refers to `B` and `B` to `C`, in one pass after the other.  The `C` of `D` stays, since the
definition of `C` stands beside it. -/
theorem expand_of_acyclic_chain :
    let table :=
      (empty.insertAll
        [⟨⟨["N"]⟩, "A", tokenize "const B"⟩, ⟨⟨["N"]⟩, "B", tokenize "C &"⟩,
          ⟨⟨["N"]⟩, "C", tokenize "float"⟩, ⟨⟨["N"]⟩, "D", tokenize "float C"⟩]).1
    table.SharesScope ⟨["N"]⟩ ∧ table.RefersOnce ∧
      (∀ key, ¬ TransGen table.Refers key key) ∧ table.expand.1.report.cycles = [] ∧
      table.expand.1.report.passes ≤ 4 ∧
      table.expand.1.table.entries.map (Token.joinedText ·.definition) =
        ["const float &", "float &", "float", "float C"] := by
  intro table
  let rank : String → Nat := fun key => if key = "NA" then 2 else if key = "NC" then 0 else 1
  have shared : table.SharesScope ⟨["N"]⟩ := by
    unfold SharesScope
    decide
  have once : table.RefersOnce := by
    unfold RefersOnce
    decide +kernel
  have lower : ∀ entry ∈ table.entries, ∀ token ∈ entry.definition,
      (table.meaning? entry.scope token.text).all (fun target => rank target < rank entry.key) := by
    decide +kernel
  have acyclic : ∀ key, ¬ TransGen table.Refers key key := by
    intro key around
    have falls : ∀ target, TransGen table.Refers key target → rank target < rank key := by
      intro target way
      induction way with
      | single refers =>
        obtain ⟨entry, member, rfl, token, inside, means⟩ := refers
        simpa [means] using lower entry member token inside
      | @tail _ target _ refers ih =>
        obtain ⟨entry, member, rfl, token, inside, means⟩ := refers
        have next : rank target < rank entry.key := by
          simpa [means] using lower entry member token inside
        exact next.trans ih
    exact (falls key around).false
  obtain ⟨noCycles, _, passes, _⟩ := expand_of_acyclic shared once acyclic
  refine ⟨shared, once, acyclic, noCycles, passes, ?_⟩
  rw [expand_of_pairwise (by decide +kernel)]
  decide +kernel

end AliasTable

end ApiReference
