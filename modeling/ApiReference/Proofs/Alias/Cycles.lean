import ApiReference.Proofs.Alias.References

/-!
# The report of cycles

The search for cycles goes by plain references, which leave out the tokens that end the spelling a
definition opens with.  It finds exactly the aliases from which plain references lead to one that
plainly refers to itself (`mem_residualCycles`).  The report names these, and the aliases that were
still changing at the last pass (`mem_cycles_iff`).

The search runs over the definitions that expansion has left.  If all aliases share a scope, their
references lead along references of the table before (`transGen_of_refers_settle`), so that an
alias that is reported, and not for want of passes, did reach a cycle from the beginning
(`reachesCycle_of_mem_cycles`).
-/

set_option autoImplicit false

namespace ApiReference

namespace AliasTable

open Relation

/-- The alias with the first key refers to the one with the second by a token that does not end the
spelling which the definition of the second opens with. -/
def RefersPlainly (table : AliasTable) (key target : String) : Prop :=
  ∃ entry ∈ table.entries, entry.key = key ∧ table.refersTo (· = target) entry = true

variable {table : AliasTable} {scope : Scope} {key target : String} {reached : List String}

/-! ## The search -/

theorem refersTo_iff {accepted : String → Bool} {entry : Alias} :
    table.refersTo accepted entry = true ↔
      ∃ (position : Nat) (token : Token) (aim : Alias),
        entry.definition[position]? = some token ∧
          table.resolve? token.text entry.scope = some aim ∧ accepted aim.key = true ∧
          spellsOpening entry.definition position aim.definition = false := by
  simp only [refersTo, List.any_eq_true]
  constructor
  · rintro ⟨⟨token, position⟩, member, counts⟩
    have present := List.mem_zipIdx_iff_getElem?.mp member
    cases resolved : table.resolve? token.text entry.scope with
    | none => simp [resolved] at counts
    | some aim =>
      simp only [resolved, Bool.and_eq_true, Bool.not_eq_true'] at counts
      exact ⟨position, token, aim, present, resolved, counts⟩
  · rintro ⟨position, token, aim, present, resolved, counts⟩
    refine ⟨(token, position), List.mem_zipIdx_iff_getElem?.mpr present, ?_⟩
    simpa only [resolved, Bool.and_eq_true, Bool.not_eq_true'] using counts

/-- An alias refers into a set of keys if it plainly refers to one of them. -/
theorem refersTo_iff_exists {accepted : String → Bool} {entry : Alias} :
    table.refersTo accepted entry = true ↔
      ∃ target, accepted target = true ∧ table.refersTo (· = target) entry = true := by
  constructor
  · intro refers
    obtain ⟨position, token, aim, present, resolved, counts, opens⟩ := refersTo_iff.mp refers
    refine ⟨aim.key, counts, refersTo_iff.mpr ?_⟩
    exact ⟨position, token, aim, present, resolved, decide_eq_true rfl, opens⟩
  · rintro ⟨target, counts, refers⟩
    obtain ⟨position, token, aim, present, resolved, isTarget, opens⟩ := refersTo_iff.mp refers
    obtain rfl : aim.key = target := of_decide_eq_true isTarget
    exact refersTo_iff.mpr ⟨position, token, aim, present, resolved, counts, opens⟩

theorem mem_selfReferring : key ∈ table.selfReferring ↔ table.RefersPlainly key key := by
  simp only [selfReferring, List.mem_map, List.mem_filter]
  constructor
  · rintro ⟨entry, ⟨member, refers⟩, rfl⟩
    exact ⟨entry, member, rfl, refers⟩
  · rintro ⟨entry, member, rfl, refers⟩
    exact ⟨entry, ⟨member, refers⟩, rfl⟩

theorem mem_referringInto :
    key ∈ table.referringInto reached ↔
      key ∉ reached ∧ ∃ target ∈ reached, table.RefersPlainly key target := by
  simp only [referringInto, List.mem_map, List.mem_filter, Bool.and_eq_true, Bool.not_eq_true',
    List.contains_eq_mem, decide_eq_false_iff_not]
  constructor
  · rintro ⟨entry, ⟨member, outside, refers⟩, rfl⟩
    obtain ⟨target, inside, refersPlainly⟩ := refersTo_iff_exists.mp refers
    exact ⟨outside, target, List.contains_iff_mem.mp inside, entry, member, rfl, refersPlainly⟩
  · rintro ⟨outside, target, inside, entry, member, rfl, refersPlainly⟩
    refine ⟨entry, ⟨member, outside, refersTo_iff_exists.mpr ?_⟩, rfl⟩
    exact ⟨target, List.contains_iff_mem.mpr inside, refersPlainly⟩

/-- A set of keys is extended by exactly those from which references lead into it. -/
theorem mem_reachingInto :
    key ∈ table.reachingInto reached ↔
      ∃ target ∈ reached, ReflTransGen table.RefersPlainly key target := by
  induction reached using reachingInto.induct table with
  | case1 reached more ih =>
    rw [reachingInto, dif_pos more, ih]
    constructor
    · rintro ⟨target, member, way⟩
      rcases List.mem_append.mp member with inside | added
      · exact ⟨target, inside, way⟩
      · obtain ⟨_, next, inside, refers⟩ := mem_referringInto.mp added
        exact ⟨next, inside, way.tail refers⟩
    · rintro ⟨target, inside, way⟩
      exact ⟨target, List.mem_append_left _ inside, way⟩
  | case2 reached complete =>
    rw [reachingInto, dif_neg complete]
    constructor
    · intro inside
      exact ⟨key, inside, .refl⟩
    · rintro ⟨target, inside, way⟩
      -- The set is closed, so the way stays inside when it is followed back from its end.
      induction way using ReflTransGen.head_induction_on with
      | refl => exact inside
      | head refers _ ih =>
        by_contra outside
        have added := mem_referringInto.mpr ⟨outside, _, ih, refers⟩
        rw [not_not.mp complete] at added
        cases added

/-- The search finds the aliases from which plain references lead to one that plainly refers to
itself. -/
theorem mem_residualCycles :
    key ∈ table.residualCycles ↔
      ∃ turn, ReflTransGen table.RefersPlainly key turn ∧ table.RefersPlainly turn turn := by
  rw [residualCycles, mem_reachingInto]
  constructor
  · rintro ⟨turn, self, way⟩
    exact ⟨turn, way, mem_selfReferring.mp self⟩
  · rintro ⟨turn, way, self⟩
    exact ⟨turn, mem_selfReferring.mpr self, way⟩

/-- A plain reference is a reference. -/
theorem RefersPlainly.refers (plainly : table.RefersPlainly key target) :
    table.Refers key target := by
  obtain ⟨entry, member, rfl, refers⟩ := plainly
  obtain ⟨position, token, aim, present, resolved, isTarget, _⟩ := refersTo_iff.mp refers
  obtain rfl : aim.key = target := of_decide_eq_true isTarget
  refine ⟨entry, member, rfl, token, List.mem_of_getElem? present, ?_⟩
  exact meaning?_eq_some_iff.mpr ⟨aim, resolved, rfl⟩

/-- The definition of the alias opens with three tokens of which the last resolves to the alias. -/
def OpeningNamesItself (table : AliasTable) (key : String) : Prop :=
  ∃ entry ∈ table.entries, entry.key = key ∧
    ∃ third, entry.definition[2]? = some third ∧
      table.meaning? entry.scope third.text = some key

/-- A reference is plain, unless the third token of its target names the target. -/
theorem RefersPlainly.of_refers (shared : table.SharesScope scope)
    (refers : table.Refers key target) (plain : ¬ table.OpeningNamesItself target) :
    table.RefersPlainly key target := by
  obtain ⟨entry, member, rfl, token, inside, means⟩ := refers
  obtain ⟨aim, resolved, rfl⟩ := meaning?_eq_some_iff.mp means
  obtain ⟨before, after, split⟩ := List.append_of_mem inside
  refine ⟨entry, member, rfl, refersTo_iff.mpr ⟨before.length, token, aim, ?_, resolved, ?_, ?_⟩⟩
  · simp [split]
  · exact decide_eq_true rfl
  · rw [split, ← Bool.not_eq_true]
    intro spells
    obtain ⟨third, isThird, sameText⟩ := exists_third_of_spellsOpening spells
    have aimMember := mem_of_resolve? resolved
    refine plain ⟨aim, aimMember, rfl, third, isThird, ?_⟩
    rw [sameText, shared aim aimMember, ← shared entry member]
    exact means

/-! ## The report -/

/-- Wherever passes over a whole table have ended, the aliases that do not come to an end are those
that were still changing and those that the search has found. -/
theorem mem_cyclicEntries_iff {allowed : Nat} :
    key ∈ (cyclicEntries (table.settle allowed table.keys)).map Alias.key ↔
      key ∈ (table.settle allowed table.keys).unsettled ∨
        key ∈ (table.settle allowed table.keys).table.residualCycles := by
  simp only [cyclicEntries, List.mem_map, List.mem_filter, Bool.or_eq_true, List.contains_iff_mem]
  constructor
  · rintro ⟨entry, ⟨_, reported⟩, rfl⟩
    exact reported
  · intro reported
    have isKey : key ∈ (table.settle allowed table.keys).table.keys := by
      rcases reported with unsettled | residual
      · rw [keys_settle]
        exact (settle_subset _ _ _).2 unsettled
      · obtain ⟨turn, way, self⟩ := mem_residualCycles.mp residual
        rcases way.cases_head with rfl | ⟨next, refers, _⟩
        · exact (mem_keys_of_refers self.refers).1
        · exact (mem_keys_of_refers refers.refers).1
    obtain ⟨entry, member, rfl⟩ := List.mem_map.mp isKey
    exact ⟨entry, ⟨member, reported⟩, rfl⟩

/-- The report names the aliases that were still changing and those that the search has found. -/
theorem mem_cycles_iff :
    key ∈ table.expand.1.report.cycles ↔
      key ∈ table.settlement.unsettled ∨ key ∈ table.expand.1.table.residualCycles :=
  mem_cyclicEntries_iff

/-- An alias that was still changing is reported with the number of passes. -/
theorem mem_unsettled_iff :
    key ∈ table.settlement.unsettled ↔
      ∃ definition passes, Finding.aliasCycle key definition (some passes) ∈ table.expand.2 := by
  have findings : table.expand.2 =
      (cyclicEntries table.settlement).map (cycleFinding table.settlement) := rfl
  rw [findings]
  simp only [List.mem_map, cycleFinding, Finding.aliasCycle.injEq]
  constructor
  · intro unsettled
    have reported := mem_cycles_iff.mpr (Or.inl unsettled)
    rw [cycles_expand] at reported
    obtain ⟨entry, member, rfl⟩ := List.mem_map.mp reported
    exact ⟨_, _, entry, member, rfl, rfl, if_pos unsettled⟩
  · rintro ⟨definition, passes, entry, _, rfl, _, noted⟩
    by_contra settled
    rw [if_neg settled] at noted
    contradiction

/-! ## Where the references of the result come from -/

/-- The passes open no way that was not there. -/
theorem transGen_of_refers_settle (shared : table.SharesScope scope) {allowed : Nat}
    {worklist : List String} (refers : (table.settle allowed worklist).table.Refers key target) :
    TransGen table.Refers key target := by
  have kept : (table.settle allowed worklist).table.SharesScope scope ∧
      ∀ key target, (table.settle allowed worklist).table.Refers key target →
        TransGen table.Refers key target := by
    refine settle_induction (motive := fun later => later.SharesScope scope ∧
      ∀ key target, later.Refers key target → TransGen table.Refers key target) ?_ allowed
      ⟨shared, fun _ _ refers => .single refers⟩
    rintro later scanned _ ⟨sharedLater, leads⟩
    refine ⟨sharedLater.expandEntry scanned, fun key target refers => ?_⟩
    exact TransGen.closed leads _ _ (transGen_of_refers_expandEntry sharedLater refers)
  exact kept.2 key target refers

theorem transGen_of_refers_expand (shared : table.SharesScope scope)
    (refers : table.expand.1.table.Refers key target) : TransGen table.Refers key target := by
  rw [← refers_sort]
  exact transGen_of_refers_settle shared.sort refers

/-- An alias that is reported without a number of passes reaches a cycle of the references as they
were before the expansion. -/
theorem reachesCycle_of_mem_cycles (shared : table.SharesScope scope)
    (reported : key ∈ table.expand.1.report.cycles)
    (settled : ∀ definition passes,
      Finding.aliasCycle key definition (some passes) ∉ table.expand.2) :
    table.ReachesCycle key := by
  have residual : key ∈ table.expand.1.table.residualCycles := by
    refine (mem_cycles_iff.mp reported).resolve_left fun unsettled => ?_
    obtain ⟨definition, passes, noted⟩ := mem_unsettled_iff.mp unsettled
    exact settled definition passes noted
  obtain ⟨turn, way, self⟩ := mem_residualCycles.mp residual
  refine ⟨turn, ?_, transGen_of_refers_expand shared self.refers⟩
  have wayBefore : ReflTransGen (TransGen table.Refers) key turn :=
    ReflTransGen.mono (fun _ _ refers => transGen_of_refers_expand shared refers.refers) _ _ way
  rwa [reflTransGen_transGen] at wayBefore

/-- `X` and `Y` lead to the cycle of `A` and `B`, and in the end all four refer to `A`. -/
theorem reachesCycle_of_mem_cycles_chain :
    let table :=
      (empty.insertAll
        [⟨⟨["N"]⟩, "A", tokenize "const B"⟩, ⟨⟨["N"]⟩, "B", tokenize "A *"⟩,
          ⟨⟨["N"]⟩, "X", tokenize "B &"⟩, ⟨⟨["N"]⟩, "Y", tokenize "X"⟩]).1
    table.SharesScope ⟨["N"]⟩ ∧ table.expand.1.report.cycles = ["NA", "NB", "NX", "NY"] ∧
      table.expand.2 =
        [.aliasCycle "NA" "const A *" none, .aliasCycle "NB" "const A * *" none,
          .aliasCycle "NX" "const A * * &" none, .aliasCycle "NY" "const A * * &" none] ∧
      table.ReachesCycle "NY" := by
  intro table
  have shared : table.SharesScope ⟨["N"]⟩ := by
    unfold SharesScope
    decide
  have sorted : table.entries.Pairwise fun left right => precedes left right = true := by
    decide +kernel
  have reported : table.expand.1.report.cycles = ["NA", "NB", "NX", "NY"] := by
    rw [expand_of_pairwise sorted]
    decide +kernel
  have findings : table.expand.2 =
      [.aliasCycle "NA" "const A *" none, .aliasCycle "NB" "const A * *" none,
        .aliasCycle "NX" "const A * * &" none, .aliasCycle "NY" "const A * * &" none] := by
    rw [expand, sort_of_pairwise sorted]
    decide +kernel
  refine ⟨shared, reported, findings, reachesCycle_of_mem_cycles shared ?_ ?_⟩
  · rw [reported]
    decide
  · rw [findings]
    simp

end AliasTable

end ApiReference
