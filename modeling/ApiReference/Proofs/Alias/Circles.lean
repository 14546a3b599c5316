import ApiReference.Proofs.Alias.Cycles
import Mathlib.Tactic.Choose

/-!
# No cycle is lost

A circle is a set of keys each of which refers to one of the set.  An alias that reaches a cycle
leads into a circle (`HasCircle`), and expansion keeps circles and the ways into them
(`HasCircle.expandEntry`).

A smallest circle gets smaller when one of its aliases is expanded (`HasCircle.shrink`): the alias
has a way around the one it refers to, which the circle then does without.  An alias that has left
the worklist has taken over all references of those it refers to, or leads to one that refers to
itself (`Exhausted`).  So every pass takes one from the size of a smallest circle, until a circle of
one alias is left, which refers to itself (`refersToSelf_settlement`).

The report can still miss the alias, where all that is left of its cycle are tokens that end the
spelling a definition opens with.  It is reported exactly if plain references lead it to one that
plainly refers to itself, or if it was still changing at the last pass.  In particular it is
reported unless it refers to an alias whose third token names itself
(`mem_cycles_iff_of_reachesCycle`).
-/

set_option autoImplicit false

namespace ApiReference

namespace AliasTable

open Relation

/-- Each key of the set refers to one of the set. -/
def IsCircle (table : AliasTable) (circle : Finset String) : Prop :=
  ∀ key ∈ circle, ∃ target ∈ circle, table.Refers key target

/-- References lead from the alias to one of the set. -/
def LeadsInto (table : AliasTable) (key : String) (circle : Finset String) : Prop :=
  ∃ target ∈ circle, ReflTransGen table.Refers key target

/-- References lead from the alias into a circle of a limited size. -/
def HasCircle (table : AliasTable) (key : String) (size : Nat) : Prop :=
  ∃ circle : Finset String, circle.card ≤ size ∧ table.IsCircle circle ∧ table.LeadsInto key circle

/-- References lead from the alias to one that refers to itself. -/
def ReachesSelf (table : AliasTable) (key : String) : Prop :=
  ∃ turn, ReflTransGen table.Refers key turn ∧ table.Refers turn turn

/-- The alias refers to all that those refer to which it refers to, or leads to one that refers to
itself. -/
def Exhausted (table : AliasTable) (key : String) : Prop :=
  table.ReachesSelf key ∨
    ∀ target, table.Refers key target → ∀ further, table.Refers target further →
      table.Refers key further

variable {table : AliasTable} {scope : Scope} {key start scanned : String}
  {circle smaller : Finset String} {size : Nat}

/-! ## Circles -/

theorem HasCircle.mono {larger : Nat} (has : table.HasCircle key size) (le : size ≤ larger) :
    table.HasCircle key larger := by
  obtain ⟨circle, small, circular, leads⟩ := has
  exact ⟨circle, small.trans le, circular, leads⟩

/-- The aliases on a cycle that goes through an alias make a circle. -/
theorem hasCircle_of_reachesCycle (reaches : table.ReachesCycle key) :
    table.HasCircle key table.size := by
  classical
  obtain ⟨turn, way, around⟩ := reaches
  refine ⟨(table.below turn).filter (turn ∈ table.below ·), ?_, ?_, ?_⟩
  · calc ((table.below turn).filter (turn ∈ table.below ·)).card ≤ (table.below turn).card :=
          Finset.card_filter_le _ _
      _ ≤ table.keys.toFinset.card := Finset.card_le_card (table.below_subset turn)
      _ ≤ table.size := table.card_keys_le
  · intro other member
    obtain ⟨there, back⟩ := Finset.mem_filter.mp member
    obtain ⟨next, refers, rest⟩ := TransGen.head'_iff.mp (mem_below.mp back)
    refine ⟨next, Finset.mem_filter.mpr ⟨?_, ?_⟩, refers⟩
    · exact mem_below.mpr ((mem_below.mp there).tail refers)
    · exact mem_below.mpr (TransGen.trans_right rest around)
  · have onCycle := mem_below.mpr around
    exact ⟨turn, Finset.mem_filter.mpr ⟨onCycle, onCycle⟩, way⟩

theorem isCircle_singleton (refers : table.Refers key key) : table.IsCircle {key} := by
  intro other member
  obtain rfl := Finset.mem_singleton.mp member
  exact ⟨other, member, refers⟩

/-- A circle of one alias refers to itself. -/
theorem reachesSelf_iff_hasCircle_one : table.ReachesSelf key ↔ table.HasCircle key 1 := by
  constructor
  · rintro ⟨turn, way, refers⟩
    exact ⟨{turn}, by simp, isCircle_singleton refers, turn, Finset.mem_singleton_self turn, way⟩
  · rintro ⟨circle, small, circular, turn, inside, way⟩
    obtain ⟨target, alsoInside, refers⟩ := circular turn inside
    obtain rfl : target = turn := Finset.card_le_one.mp small _ alsoInside _ inside
    exact ⟨target, way, refers⟩

/-- A circle goes on without one of its aliases, where another has a way around it. -/
theorem isCircle_erase {skipped beyond : String} (around : table.Refers scanned beyond)
    (beyondKept : beyond ∈ circle.erase skipped)
    (others : ∀ key ∈ circle, key ≠ scanned →
      ∃ target ∈ circle.erase skipped, table.Refers key target) :
    table.IsCircle (circle.erase skipped) := by
  intro key member
  by_cases same : key = scanned
  · subst same
    exact ⟨beyond, beyondKept, around⟩
  · exact others key (Finset.mem_of_mem_erase member) same

/-! ## What an expansion does to circles -/

/-- Where the ways end well after an expansion, all ways do that led to their ends before. -/
theorem leadsInto_expandEntry (shared : table.SharesScope scope) (circular : table.IsCircle circle)
    (ends : ∀ target ∈ circle, (table.expandEntry scanned).1.LeadsInto target smaller)
    (leads : table.LeadsInto key circle) :
    (table.expandEntry scanned).1.LeadsInto key smaller := by
  obtain ⟨last, inside, way⟩ := leads
  -- An alias may have taken over the references of the next one, so the one after is needed too.
  have alongWay : (table.expandEntry scanned).1.LeadsInto key smaller ∧
      ∃ next, table.Refers key next ∧ (table.expandEntry scanned).1.LeadsInto next smaller := by
    induction way using ReflTransGen.head_induction_on with
    | refl =>
      obtain ⟨next, nextInside, refers⟩ := circular last inside
      exact ⟨ends last inside, next, refers, ends next nextInside⟩
    | head refers _ ih =>
      obtain ⟨leadsNext, further, refersFurther, leadsFurther⟩ := ih
      refine ⟨?_, _, refers, leadsNext⟩
      rcases refers_expandEntry shared scanned refers with kept | takenOver
      · obtain ⟨target, there, wayThere⟩ := leadsNext
        exact ⟨target, there, .head kept wayThere⟩
      · obtain ⟨target, there, wayThere⟩ := leadsFurther
        exact ⟨target, there, .head (takenOver further refersFurther) wayThere⟩
  exact alongWay.1

theorem IsCircle.expandEntry (shared : table.SharesScope scope) (circular : table.IsCircle circle)
    (scanned : String) : (table.expandEntry scanned).1.IsCircle circle := by
  intro key inside
  obtain ⟨target, targetInside, refers⟩ := circular key inside
  rcases refers_expandEntry shared scanned refers with kept | takenOver
  · exact ⟨target, targetInside, kept⟩
  · obtain ⟨further, furtherInside, refersFurther⟩ := circular target targetInside
    exact ⟨further, furtherInside, takenOver further refersFurther⟩

theorem LeadsInto.expandEntry (shared : table.SharesScope scope) (circular : table.IsCircle circle)
    (leads : table.LeadsInto key circle) (scanned : String) :
    (table.expandEntry scanned).1.LeadsInto key circle :=
  leadsInto_expandEntry shared circular (fun target inside => ⟨target, inside, .refl⟩) leads

theorem HasCircle.expandEntry (shared : table.SharesScope scope) (has : table.HasCircle key size)
    (scanned : String) : (table.expandEntry scanned).1.HasCircle key size := by
  obtain ⟨circle, small, circular, leads⟩ := has
  exact ⟨circle, small, circular.expandEntry shared scanned, leads.expandEntry shared circular scanned⟩

theorem ReachesSelf.expandEntry (shared : table.SharesScope scope) (reaches : table.ReachesSelf key)
    (scanned : String) : (table.expandEntry scanned).1.ReachesSelf key :=
  reachesSelf_iff_hasCircle_one.mpr
    ((reachesSelf_iff_hasCircle_one.mp reaches).expandEntry shared scanned)

/-! ## Smallest circles -/

/-- The alias leads into the circle and into none of fewer aliases. -/
structure IsSmallest (table : AliasTable) (start : String) (circle : Finset String) : Prop where
  circular : table.IsCircle circle
  leads : table.LeadsInto start circle
  card_le : ∀ other, table.IsCircle other → table.LeadsInto start other → circle.card ≤ other.card

/-- A circle is a smallest one, or there is a smaller one. -/
theorem isSmallest_or (small : circle.card ≤ size + 1) (circular : table.IsCircle circle)
    (leads : table.LeadsInto start circle) :
    table.HasCircle start size ∨ table.IsSmallest start circle := by
  by_cases has : table.HasCircle start size
  · exact Or.inl has
  · refine Or.inr ⟨circular, leads, fun other otherCircular otherLeads => ?_⟩
    by_contra fewer
    exact has ⟨other, by omega, otherCircular, otherLeads⟩

theorem exists_isSmallest (has : table.HasCircle start size) :
    ∃ circle, circle.card ≤ size ∧ table.IsSmallest start circle := by
  induction size with
  | zero =>
    obtain ⟨circle, small, circular, leads⟩ := has
    exact ⟨circle, small, circular, leads, fun other _ _ => by omega⟩
  | succ size ih =>
    obtain ⟨circle, small, circular, leads⟩ := has
    rcases isSmallest_or small circular leads with fewer | smallest
    · obtain ⟨other, le, smallest⟩ := ih fewer
      exact ⟨other, by omega, smallest⟩
    · exact ⟨circle, small, smallest⟩

namespace IsSmallest

variable (smallest : table.IsSmallest start circle)

include smallest

/-- A circle inside a smallest one, which the alias leads into, is all of it. -/
theorem eq_of_subset (inside : smaller ⊆ circle) (circular : table.IsCircle smaller)
    (leads : table.LeadsInto start smaller) : smaller = circle :=
  Finset.eq_of_subset_of_card_le inside (smallest.card_le smaller circular leads)

/-- All aliases of a smallest circle are led to. -/
theorem reflTransGen {target : String} (inside : target ∈ circle) :
    ReflTransGen table.Refers start target := by
  classical
  have whole : circle.filter (ReflTransGen table.Refers start) = circle := by
    refine smallest.eq_of_subset (Finset.filter_subset _ _) ?_ ?_
    · intro key member
      obtain ⟨keyInside, way⟩ := Finset.mem_filter.mp member
      obtain ⟨next, nextInside, refers⟩ := smallest.circular key keyInside
      exact ⟨next, Finset.mem_filter.mpr ⟨nextInside, way.tail refers⟩, refers⟩
    · obtain ⟨last, lastInside, way⟩ := smallest.leads
      exact ⟨last, Finset.mem_filter.mpr ⟨lastInside, way⟩, way⟩
  rw [← whole] at inside
  exact (Finset.mem_filter.mp inside).2

/-- No alias of a smallest circle refers to itself, if there are several. -/
theorem not_refers_self (several : 1 < circle.card) {target : String} (inside : target ∈ circle) :
    ¬ table.Refers target target := by
  intro refers
  have le := smallest.card_le {target} (isCircle_singleton refers)
    ⟨target, Finset.mem_singleton_self target, smallest.reflTransGen inside⟩
  rw [Finset.card_singleton] at le
  omega

/-- In a smallest circle, each alias has a successor of its own. -/
theorem exists_injOn : ∃ next : String → String,
    (∀ key ∈ circle, next key ∈ circle ∧ table.Refers key (next key)) ∧
      Set.InjOn next circle := by
  have successor : ∀ key : String, ∃ target, key ∈ circle → target ∈ circle ∧
      table.Refers key target := by
    intro key
    by_cases inside : key ∈ circle
    · obtain ⟨target, targetInside, refers⟩ := smallest.circular key inside
      exact ⟨target, fun _ => ⟨targetInside, refers⟩⟩
    · exact ⟨key, fun member => absurd member inside⟩
  choose next follows using successor
  refine ⟨next, follows, Finset.card_image_iff.mp ?_⟩
  have image : circle.image next = circle := by
    refine smallest.eq_of_subset ?_ ?_ ?_
    · intro target member
      obtain ⟨key, inside, rfl⟩ := Finset.mem_image.mp member
      exact (follows key inside).1
    · intro target member
      obtain ⟨key, inside, rfl⟩ := Finset.mem_image.mp member
      have nextInside := (follows key inside).1
      exact ⟨next (next key), Finset.mem_image_of_mem next nextInside, (follows _ nextInside).2⟩
    · obtain ⟨last, inside, way⟩ := smallest.leads
      obtain ⟨_, refers⟩ := follows last inside
      exact ⟨next last, Finset.mem_image_of_mem next inside, way.tail refers⟩
  rw [image]

/-- When an alias of a smallest circle is expanded, there is a smaller circle. -/
theorem shrink (shared : table.SharesScope scope) (several : 1 < circle.card)
    (inside : scanned ∈ circle) :
    (table.expandEntry scanned).1.HasCircle start (circle.card - 1) := by
  obtain ⟨next, follows, injective⟩ := smallest.exists_injOn
  obtain ⟨skippedInside, refersSkipped⟩ := follows scanned inside
  obtain ⟨beyondInside, refersBeyond⟩ := follows (next scanned) skippedInside
  have foreign : next scanned ≠ scanned := by
    intro same
    rw [same] at refersSkipped
    exact smallest.not_refers_self several inside refersSkipped
  have beyondNotSkipped : next (next scanned) ≠ next scanned := by
    intro same
    rw [same] at refersBeyond
    exact smallest.not_refers_self several skippedInside refersBeyond
  -- The circle goes on without the alias that the scanned one refers to.
  have beyondKept : next (next scanned) ∈ circle.erase (next scanned) :=
    Finset.mem_erase.mpr ⟨beyondNotSkipped, beyondInside⟩
  have nextKept : ∀ key ∈ circle, key ≠ scanned → next key ∈ circle.erase (next scanned) := by
    intro key keyInside different
    refine Finset.mem_erase.mpr ⟨fun same => different ?_, (follows key keyInside).1⟩
    exact injective keyInside inside same
  have around := (refers_around shared refersSkipped foreign).resolve_left
    (smallest.not_refers_self several skippedInside)
  rcases around _ refersBeyond with afterwards | before
  · refine ⟨circle.erase (next scanned), (Finset.card_erase_of_mem skippedInside).le, ?_, ?_⟩
    · refine isCircle_erase afterwards beyondKept fun key keyInside different => ?_
      refine ⟨next key, nextKept key keyInside different, ?_⟩
      exact (refers_expandEntry_of_ne shared different).mpr (follows key keyInside).2
    · refine leadsInto_expandEntry shared smallest.circular (fun target targetInside => ?_)
        smallest.leads
      by_cases same : target = next scanned
      · subst same
        exact ⟨_, beyondKept, .single ((refers_expandEntry_of_ne shared foreign).mpr refersBeyond)⟩
      · exact ⟨target, Finset.mem_erase.mpr ⟨same, targetInside⟩, .refl⟩
  · -- The way around was there already, against the choice of the circle.
    have circular : table.IsCircle (circle.erase (next scanned)) :=
      isCircle_erase before beyondKept fun key keyInside different =>
        ⟨next key, nextKept key keyInside different, (follows key keyInside).2⟩
    have le := smallest.card_le _ circular ⟨_, beyondKept, smallest.reflTransGen beyondInside⟩
    rw [Finset.card_erase_of_mem skippedInside] at le
    omega

/-- An exhausted alias of a smallest circle leads to one that refers to itself. -/
theorem reachesSelf_of_exhausted (inside : key ∈ circle) (exhausted : table.Exhausted key) :
    table.ReachesSelf start := by
  classical
  have way := smallest.reflTransGen inside
  rcases exhausted with ⟨turn, onward, refers⟩ | takesOver
  · exact ⟨turn, way.trans onward, refers⟩
  · -- What the alias refers to is a circle, hence all of the circle, the alias with it.
    have whole : circle.filter (table.Refers key) = circle := by
      refine smallest.eq_of_subset (Finset.filter_subset _ _) ?_ ?_
      · intro target member
        obtain ⟨targetInside, refers⟩ := Finset.mem_filter.mp member
        obtain ⟨next, nextInside, refersNext⟩ := smallest.circular target targetInside
        exact ⟨next, Finset.mem_filter.mpr ⟨nextInside, takesOver target refers next refersNext⟩,
          refersNext⟩
      · obtain ⟨target, targetInside, refers⟩ := smallest.circular key inside
        exact ⟨target, Finset.mem_filter.mpr ⟨targetInside, refers⟩, way.tail refers⟩
    have self := inside
    rw [← whole] at self
    exact ⟨key, way, (Finset.mem_filter.mp self).2⟩

end IsSmallest

/-! ## Aliases off the worklist -/

/-- A scan that changes nothing leaves its alias exhausted. -/
theorem exhausted_of_quiet (shared : table.SharesScope scope)
    (quiet : (table.expandEntry key).2 = false) : table.Exhausted key := by
  by_cases reaches : table.ReachesSelf key
  · exact Or.inl reaches
  · refine Or.inr fun target refers further refersFurther => ?_
    have foreign : target ≠ key := by
      rintro rfl
      exact reaches ⟨target, .refl, refers⟩
    rcases refers_around shared refers foreign with self | around
    · exact absurd ⟨target, .single refers, self⟩ reaches
    · have there := around further refersFurther
      rwa [expandEntry_of_eq_false quiet, or_self] at there

/-- An exhausted alias stays so while others are expanded. -/
theorem Exhausted.expandEntry (shared : table.SharesScope scope) (exhausted : table.Exhausted key)
    (different : key ≠ scanned) : (table.expandEntry scanned).1.Exhausted key := by
  rcases exhausted with reaches | takesOver
  · exact Or.inl (reaches.expandEntry shared scanned)
  · refine Or.inr fun target refers further refersFurther => ?_
    rw [refers_expandEntry_of_ne shared different] at refers ⊢
    by_cases same : target = scanned
    · subst same
      rcases refers_of_refers_expandEntry shared refersFurther with there | ⟨middle, first, second⟩
      · exact takesOver target refers further there
      · exact takesOver middle (takesOver target refers middle first) further second
    · rw [refers_expandEntry_of_ne shared same] at refersFurther
      exact takesOver target refers further refersFurther

/-! ## Passes -/

variable {worklist : List String}

theorem SharesScope.expandPass (shared : table.SharesScope scope) (worklist : List String) :
    (table.expandPass worklist).1.SharesScope scope :=
  shared.of_declared (declared_expandPass table worklist)

theorem HasCircle.expandPass (shared : table.SharesScope scope) (has : table.HasCircle start size)
    (worklist : List String) : (table.expandPass worklist).1.HasCircle start size := by
  have kept : (table.expandPass worklist).1.SharesScope scope ∧
      (table.expandPass worklist).1.HasCircle start size := by
    refine expandPass_induction
      (motive := fun later => later.SharesScope scope ∧ later.HasCircle start size) ?_ ⟨shared, has⟩
    rintro later key _ ⟨sharedLater, hasLater⟩
    exact ⟨sharedLater.expandEntry key, hasLater.expandEntry sharedLater key⟩
  exact kept.2

/-- A pass that meets a circle leaves a smaller one, if there were several aliases in it. -/
theorem HasCircle.of_expandPass (shared : table.SharesScope scope) (small : circle.card ≤ size + 1)
    (circular : table.IsCircle circle) (leads : table.LeadsInto start circle)
    (met : ∃ key ∈ circle, key ∈ worklist) (several : 1 ≤ size) :
    (table.expandPass worklist).1.HasCircle start size := by
  induction worklist generalizing table with
  | nil =>
    obtain ⟨_, _, member⟩ := met
    cases member
  | cons first later ih =>
    rcases isSmallest_or small circular leads with fewer | smallest
    · exact fewer.expandPass shared (first :: later)
    · by_cases inside : first ∈ circle
      · by_cases exact : circle.card = size + 1
        · have shrunk := smallest.shrink shared (by omega) inside
          rw [exact, Nat.add_sub_cancel] at shrunk
          exact shrunk.expandPass (shared.expandEntry first) later
        · have fewer : table.HasCircle start size := ⟨circle, by omega, circular, leads⟩
          exact fewer.expandPass shared (first :: later)
      · obtain ⟨key, keyInside, member⟩ := met
        have different : key ≠ first := ne_of_mem_of_not_mem keyInside inside
        have inLater := (List.mem_cons.mp member).resolve_left different
        exact ih (shared.expandEntry first) (circular.expandEntry shared first)
          (leads.expandEntry shared circular first) ⟨key, keyInside, inLater⟩

/-- What a pass has not changed is exhausted, if all was that is not on its worklist. -/
theorem Exhausted.expandPass (shared : table.SharesScope scope)
    (exhausted : key ∉ worklist → table.Exhausted key)
    (unchanged : key ∉ (table.expandPass worklist).2) :
    (table.expandPass worklist).1.Exhausted key := by
  refine @expandPass_unchanged (fun later => later.SharesScope scope)
    (fun later => later.Exhausted key) key worklist ?_ ?_ ?_ table shared exhausted unchanged
  · exact fun later first sharedLater => sharedLater.expandEntry first
  · exact fun later sharedLater quiet => exhausted_of_quiet sharedLater quiet
  · exact fun later first sharedLater different known => known.expandEntry sharedLater different

/-- If all aliases off the worklist are exhausted, and the passes that are allowed are enough for
the circle, then the alias leads to one that refers to itself when they are over. -/
theorem reachesSelf_settle (shared : table.SharesScope scope) {allowed : Nat}
    (exhausted : ∀ key, key ∉ worklist → table.Exhausted key)
    (has : table.HasCircle start (max 1 allowed)) :
    (table.settle allowed worklist).table.ReachesSelf start := by
  induction table, allowed, worklist using worklist_induction with
  | done table allowed =>
    rw [settle_nil]
    obtain ⟨circle, _, smallest⟩ := exists_isSmallest has
    obtain ⟨key, inside, _⟩ := smallest.leads
    exact smallest.reachesSelf_of_exhausted inside (exhausted key List.not_mem_nil)
  | stopped table key later => exact reachesSelf_iff_hasCircle_one.mpr has
  | pass table allowed first later ih =>
    refine ih (shared.expandPass _) (fun key unchanged => ?_) ?_
    · exact Exhausted.expandPass shared (exhausted key) unchanged
    · obtain ⟨circle, small, smallest⟩ := exists_isSmallest has
      by_cases met : ∃ key ∈ circle, key ∈ first :: later
      · cases allowed with
        | zero => exact has.expandPass shared (first :: later)
        | succ allowed =>
          refine HasCircle.mono ?_ (Nat.le_max_right 1 (allowed + 1))
          exact HasCircle.of_expandPass shared (by omega) smallest.circular smallest.leads met
            (by omega)
      · obtain ⟨key, inside, _⟩ := smallest.leads
        have absent : key ∉ first :: later := fun member => met ⟨key, inside, member⟩
        have self := smallest.reachesSelf_of_exhausted inside (exhausted key absent)
        have one := (reachesSelf_iff_hasCircle_one.mp self).expandPass shared (first :: later)
        exact one.mono (Nat.le_max_left 1 allowed)

/-- An alias that reaches a cycle still leads, when its table is expanded, to one that refers to
itself. -/
theorem reachesSelf_expand (shared : table.SharesScope scope) (reaches : table.ReachesCycle key) :
    table.expand.1.table.ReachesSelf key := by
  have reachesSorted : table.sort.ReachesCycle key := by
    rw [ReachesCycle, refers_sort]
    exact reaches
  rw [table_expand, settlement]
  refine reachesSelf_settle shared.sort (fun other absent => ?_) ?_
  · refine Or.inr fun target refers => ?_
    exact absurd (mem_keys_of_refers refers).1 absent
  · exact (hasCircle_of_reachesCycle reachesSorted).mono (by omega)

/-! ## What is reported -/

/-- Which aliases that reach a cycle are reported: those that were still changing at the last pass,
and those from which plain references lead to an alias that plainly refers to itself.  The others
lead to an alias whose third token names itself, so that plain references leave it out. -/
theorem mem_cycles_iff_of_reachesCycle (shared : table.SharesScope scope)
    (reaches : table.ReachesCycle key) :
    (key ∈ table.expand.1.report.cycles ↔
        (∃ definition passes,
          Finding.aliasCycle key definition (some passes) ∈ table.expand.2) ∨
        ∃ turn, ReflTransGen table.expand.1.table.RefersPlainly key turn ∧
          table.expand.1.table.RefersPlainly turn turn) ∧
      (key ∈ table.expand.1.report.cycles ∨
        ∃ other, ReflTransGen table.expand.1.table.Refers key other ∧
          table.expand.1.table.OpeningNamesItself other) := by
  refine ⟨by rw [mem_cycles_iff, mem_unsettled_iff, mem_residualCycles], ?_⟩
  by_cases opens : ∃ other, ReflTransGen table.expand.1.table.Refers key other ∧
      table.expand.1.table.OpeningNamesItself other
  · exact Or.inr opens
  · obtain ⟨turn, way, self⟩ := reachesSelf_expand shared reaches
    have sharedResult : table.expand.1.table.SharesScope scope :=
      shared.sort.of_declared (declared_settle _ _ _)
    have plain : ∀ other, ReflTransGen table.expand.1.table.Refers key other →
        ReflTransGen table.expand.1.table.RefersPlainly key other := by
      intro other wayThere
      induction wayThere with
      | refl => exact .refl
      | tail before refers ih =>
        refine ih.tail (.of_refers sharedResult refers fun names => opens ?_)
        exact ⟨_, before.tail refers, names⟩
    refine Or.inl (mem_cycles_iff.mpr (Or.inr (mem_residualCycles.mpr ⟨turn, plain turn way, ?_⟩)))
    exact .of_refers sharedResult self fun names => opens ⟨turn, way, names⟩

/-- `X` reaches the cycle of `A`, `B` and `C`, which are all reported with it. -/
theorem mem_cycles_iff_of_reachesCycle_chain :
    let table :=
      (empty.insertAll
        [⟨.outermost, "A", tokenize "const B"⟩, ⟨.outermost, "B", tokenize "C &"⟩,
          ⟨.outermost, "C", tokenize "A *"⟩, ⟨.outermost, "X", tokenize "U V B"⟩]).1
    table.SharesScope .outermost ∧ table.ReachesCycle "X" ∧
      table.expand.2 =
        [.aliasCycle "A" "const const C & * &" none, .aliasCycle "B" "const const C & * & * &" none,
          .aliasCycle "C" "const C & *" none,
          .aliasCycle "X" "U V const const C & * & * &" none] ∧
      "X" ∈ table.expand.1.report.cycles ∧
      ∃ turn, ReflTransGen table.expand.1.table.RefersPlainly "X" turn ∧
        table.expand.1.table.RefersPlainly turn turn := by
  intro table
  have shared : table.SharesScope .outermost := by
    unfold SharesScope
    decide
  have sorted : table.entries.Pairwise fun left right => precedes left right = true := by
    decide +kernel
  have reaches : table.ReachesCycle "X" := by
    have refers : table.Refers "X" "B" ∧ table.Refers "B" "C" ∧ table.Refers "C" "A" ∧
        table.Refers "A" "B" := by
      unfold Refers
      decide +kernel
    obtain ⟨toB, toC, toA, back⟩ := refers
    exact ⟨"B", .single toB, .head toC (.head toA (.single back))⟩
  have findings : table.expand.2 =
      [.aliasCycle "A" "const const C & * &" none, .aliasCycle "B" "const const C & * & * &" none,
        .aliasCycle "C" "const C & *" none, .aliasCycle "X" "U V const const C & * & * &" none] := by
    rw [expand, sort_of_pairwise sorted]
    decide +kernel
  have reported : "X" ∈ table.expand.1.report.cycles := by
    rw [expand_of_pairwise sorted]
    decide +kernel
  refine ⟨shared, reaches, findings, reported, ?_⟩
  rcases (mem_cycles_iff_of_reachesCycle shared reaches).1.mp reported with
    ⟨definition, passes, noted⟩ | plainly
  · rw [findings] at noted
    simp at noted
  · exact plainly

/-- The only token of `A` that resolves is its own name, at the end of the three tokens that the
definition opens with.  No `::` stands in it, and yet the reference is not counted. -/
theorem reachesCycle_unreported :
    let table := (empty.insertAll [⟨.outermost, "A", tokenize "U V A"⟩]).1
    table.SharesScope .outermost ∧
      (∀ entry ∈ table.entries, ∀ token ∈ entry.definition, token.kind ≠ .scopeResolution) ∧
      table.ReachesCycle "A" ∧ table.expand.1.report.cycles = [] ∧ table.expand.2 = [] := by
  intro table
  have sorted : table.entries.Pairwise fun left right => precedes left right = true := by
    decide +kernel
  refine ⟨?_, by decide +kernel, ?_, ?_, ?_⟩
  · unfold SharesScope
    decide
  · have self : table.Refers "A" "A" := by
      unfold Refers
      decide +kernel
    exact ⟨"A", .refl, .single self⟩
  · rw [expand_of_pairwise sorted]
    decide +kernel
  · rw [expand, sort_of_pairwise sorted]
    decide +kernel

end AliasTable

end ApiReference
