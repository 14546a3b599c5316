import ApiReference.Proofs.Alias.Order
import ApiReference.Proofs.Alias.Passes
import ApiReference.Proofs.Alias.Walk
import Mathlib.Data.Finset.Card
import Mathlib.Logic.Relation

/-!
# References between aliases

An alias refers to another if some token of its definition resolves to it.  Aliases are named by
their keys here, since expansion changes definitions and keeps keys, and keeps what names mean
(`meaning?_expandEntry`).

In a table whose aliases all stand in one scope, a token means the same in whatever definition it
stands.  What one expansion does to the references of its alias is then said by four lemmas.  A
reference that is there afterwards was there before, or leads over one of the old references
(`refers_of_refers_expandEntry`).  A reference that was there before is still there, or the alias
has taken over all references of its target (`refers_expandEntry`); in both cases the alias has a
way around the target, unless the target refers to itself (`refers_around`).  The references of all
other aliases are as they were (`refers_expandEntry_of_ne`).
-/

set_option autoImplicit false

namespace ApiReference

namespace AliasTable

open Relation

/-- The key of the alias that a name means inside a scope. -/
def meaning? (table : AliasTable) (scope : Scope) (name : String) : Option String :=
  (table.resolve? name scope).map Alias.key

/-- The definition of the alias with a key, empty if there is none. -/
def definitionOf (table : AliasTable) (key : String) : List Token :=
  ((table.find? key).map Alias.definition).getD []

/-- Some token in the definition of the alias with the first key resolves to the alias with the
second. -/
def Refers (table : AliasTable) (key target : String) : Prop :=
  ∃ entry ∈ table.entries, entry.key = key ∧
    ∃ token ∈ entry.definition, table.meaning? entry.scope token.text = some target

/-- From the alias, references lead to one from which they lead back to it. -/
def ReachesCycle (table : AliasTable) (key : String) : Prop :=
  ∃ turn, ReflTransGen table.Refers key turn ∧ TransGen table.Refers turn turn

/-- All aliases of the table stand in the scope. -/
def SharesScope (table : AliasTable) (scope : Scope) : Prop :=
  ∀ entry ∈ table.entries, entry.scope = scope

variable {table other : AliasTable} {scope : Scope} {key target further : String}

/-! ## Tables of the same aliases -/

theorem resolve?_sort (table : AliasTable) : table.sort.resolve? = table.resolve? := by
  funext name scope
  rw [resolve?, resolve?, find?_sort]

theorem meaning?_sort (table : AliasTable) : table.sort.meaning? = table.meaning? := by
  funext scope name
  rw [meaning?, meaning?, resolve?_sort]

theorem refers_sort (table : AliasTable) : table.sort.Refers = table.Refers := by
  funext key target
  simp only [Refers, meaning?_sort, table.entries_sort_perm.mem_iff]

theorem SharesScope.sort (shared : table.SharesScope scope) : table.sort.SharesScope scope := by
  intro entry member
  exact shared entry (table.entries_sort_perm.mem_iff.mp member)

/-- Tables that are declared alike share the same scope. -/
theorem SharesScope.of_declared (alike : other.declared = table.declared)
    (shared : table.SharesScope scope) : other.SharesScope scope := by
  intro entry member
  have declared : entry.declared ∈ table.declared := alike ▸ List.mem_map_of_mem member
  obtain ⟨twin, inTable, sameDeclared⟩ := List.mem_map.mp declared
  have sameScope : twin.scope = entry.scope := congrArg Prod.fst sameDeclared
  rw [← sameScope, shared twin inTable]

theorem SharesScope.expandEntry (shared : table.SharesScope scope) (key : String) :
    (table.expandEntry key).1.SharesScope scope :=
  shared.of_declared (declared_expandEntry table key)

/-! ## Meanings and definitions -/

theorem meaning?_of_declared (alike : other.declared = table.declared) :
    other.meaning? = table.meaning? := by
  funext scope name
  have sameDeclared := congrArg (Option.map Alias.keyOfDeclared) (declared_resolve? alike name scope)
  rw [Option.map_map, Option.map_map] at sameDeclared
  exact sameDeclared

@[simp]
theorem meaning?_expandEntry (table : AliasTable) (key : String) :
    (table.expandEntry key).1.meaning? = table.meaning? :=
  meaning?_of_declared (declared_expandEntry table key)

theorem meaning?_eq_some_iff {name : String} :
    table.meaning? scope name = some target ↔
      ∃ entry, table.resolve? name scope = some entry ∧ entry.key = target :=
  Option.map_eq_some_iff

theorem definitionOf_key {entry : Alias} (member : entry ∈ table.entries) :
    table.definitionOf entry.key = entry.definition := by
  rw [definitionOf, find?_key member]
  rfl

theorem definitionOf_of_resolve? {name : String} {entry : Alias}
    (resolved : table.resolve? name scope = some entry) :
    table.definitionOf entry.key = entry.definition :=
  definitionOf_key (mem_of_resolve? resolved)

/-- A token that hits means the alias whose definition it is replaced by. -/
theorem meaning?_of_hit_behind {before after : List Token} {token : Token}
    {ownKey? : Option String} {entry : Alias}
    (hit : table.lookup (before ++ token :: after) before.length scope ownKey? = .hit entry) :
    table.meaning? scope token.text = some entry.key ∧
      table.definitionOf entry.key = entry.definition := by
  obtain ⟨resolved, _⟩ := resolve?_of_hit_behind hit
  exact ⟨meaning?_eq_some_iff.mpr ⟨entry, resolved, rfl⟩, definitionOf_of_resolve? resolved⟩

/-- In a shared scope, references are read off the tokens of a definition. -/
theorem refers_iff (shared : table.SharesScope scope) :
    table.Refers key target ↔
      ∃ token ∈ table.definitionOf key, table.meaning? scope token.text = some target := by
  constructor
  · rintro ⟨entry, member, rfl, token, inside, means⟩
    rw [shared entry member] at means
    exact ⟨token, definitionOf_key member ▸ inside, means⟩
  · rintro ⟨token, inside, means⟩
    cases found : table.find? key with
    | none =>
      rw [definitionOf, found] at inside
      cases inside
    | some entry =>
      obtain ⟨member, rfl⟩ := find?_some found
      rw [definitionOf_key member] at inside
      exact ⟨entry, member, rfl, token, inside, shared entry member ▸ means⟩

/-- Only aliases of the table refer and are referred to. -/
theorem mem_keys_of_refers (refers : table.Refers key target) :
    key ∈ table.keys ∧ target ∈ table.keys := by
  obtain ⟨entry, member, rfl, token, _, means⟩ := refers
  obtain ⟨aim, resolved, rfl⟩ := meaning?_eq_some_iff.mp means
  exact ⟨List.mem_map_of_mem member, List.mem_map_of_mem (mem_of_resolve? resolved)⟩

theorem definitionOf_expandEntry_of_ne (different : target ≠ key) :
    (table.expandEntry key).1.definitionOf target = table.definitionOf target := by
  rw [definitionOf, definitionOf, find?_expandEntry_of_ne different]

/-- What a walk over a definition makes of it is the definition afterwards. -/
theorem definitionOf_expandEntry (shared : table.SharesScope scope) (key : String) :
    (table.expandEntry key).1.definitionOf key =
        (table.walkBehind (.definition key) scope [] (table.definitionOf key)).1 ∧
      (table.expandEntry key).2 =
        (table.walkBehind (.definition key) scope [] (table.definitionOf key)).2 := by
  cases found : table.find? key with
  | none =>
    rw [expandEntry_of_find?_eq_none found, definitionOf, found]
    exact ⟨rfl, rfl⟩
  | some entry =>
    obtain ⟨member, rfl⟩ := find?_some found
    rw [expandEntry_of_find? found, shared entry member, substitute_eq_walkBehind]
    simp only [definitionOf, find?_redefine, found, Option.map_some, redefineAt, if_true,
      Alias.redefine, Option.getD_some, and_self]

/-! ## What references lead to -/

theorem card_keys_le (table : AliasTable) : table.keys.toFinset.card ≤ table.size := by
  calc table.keys.toFinset.card ≤ table.keys.length := List.toFinset_card_le _
    _ = table.size := List.length_map _

open Classical in
/-- The aliases to which references lead from an alias. -/
noncomputable def below (table : AliasTable) (key : String) : Finset String :=
  table.keys.toFinset.filter (TransGen table.Refers key)

theorem mem_below : target ∈ table.below key ↔ TransGen table.Refers key target := by
  classical
  rw [below, Finset.mem_filter, List.mem_toFinset, and_iff_right_iff_imp]
  intro way
  obtain ⟨_, _, refers⟩ := TransGen.tail'_iff.mp way
  exact (mem_keys_of_refers refers).2

theorem below_subset (table : AliasTable) (key : String) :
    table.below key ⊆ table.keys.toFinset := by
  classical
  exact Finset.filter_subset _ _

/-! ## What a walk does to a definition -/

section Walk

variable {passed rest : List Token} {token : Token}

/-- A token that a walk leaves was there, or stands in the definition of an alias that some token
resolved to. -/
theorem mem_of_mem_walkBehind
    (member : token ∈ (table.walkBehind (.definition key) scope passed rest).1) :
    token ∈ rest ∨ ∃ origin ∈ rest, ∃ middle, table.meaning? scope origin.text = some middle ∧
      token ∈ table.definitionOf middle := by
  induction passed, rest using walkBehind_induction table (.definition key) scope with
  | ended passed => cases member
  | hit passed first rest entry isHit ih =>
    rw [walkBehind_hit isHit] at member
    rcases List.mem_append.mp member with inside | behind
    · obtain ⟨means, spliced⟩ := meaning?_of_hit_behind isHit
      exact Or.inr ⟨first, List.mem_cons_self, entry.key, means, spliced ▸ inside⟩
    · rcases ih behind with there | ⟨origin, inRest, spliced⟩
      · exact Or.inl (List.mem_cons_of_mem _ there)
      · exact Or.inr ⟨origin, List.mem_cons_of_mem _ inRest, spliced⟩
  | pass passed first rest noHit ih =>
    rw [walkBehind_pass noHit] at member
    rcases List.mem_cons.mp member with rfl | behind
    · exact Or.inl List.mem_cons_self
    · rcases ih behind with there | ⟨origin, inRest, spliced⟩
      · exact Or.inl (List.mem_cons_of_mem _ there)
      · exact Or.inr ⟨origin, List.mem_cons_of_mem _ inRest, spliced⟩

/-- A walk leaves a token alone or puts the whole definition in its place. -/
theorem mem_walkBehind_of_mem (key : String) (passed : List Token) (member : token ∈ rest)
    (means : table.meaning? scope token.text = some target) :
    token ∈ (table.walkBehind (.definition key) scope passed rest).1 ∨
      table.definitionOf target ⊆ (table.walkBehind (.definition key) scope passed rest).1 := by
  induction passed, rest using walkBehind_induction table (.definition key) scope with
  | ended passed => cases member
  | hit passed first rest entry isHit ih =>
    rw [walkBehind_hit isHit]
    rcases List.mem_cons.mp member with rfl | behind
    · obtain ⟨meansEntry, spliced⟩ := meaning?_of_hit_behind isHit
      obtain rfl : entry.key = target := Option.some.inj (meansEntry.symm.trans means)
      rw [spliced]
      exact Or.inr (List.subset_append_left _ _)
    · rcases ih behind with kept | spliced
      · exact Or.inl (List.mem_append_right _ kept)
      · exact Or.inr (List.subset_append_of_subset_right _ spliced)
  | pass passed first rest noHit ih =>
    rw [walkBehind_pass noHit]
    rcases List.mem_cons.mp member with rfl | behind
    · exact Or.inl List.mem_cons_self
    · rcases ih behind with kept | spliced
      · exact Or.inl (List.mem_cons_of_mem _ kept)
      · exact Or.inr (List.subset_cons_of_subset _ spliced)

/-- Where a token resolves to another alias, each token of that definition is in the window when
the walk is over or was in it before, or the definition spells the token itself. -/
theorem definition_around_walkBehind (passed : List Token) (member : token ∈ rest)
    (means : table.meaning? scope token.text = some target) (foreign : target ≠ key) :
    (∀ inner ∈ table.definitionOf target,
        inner ∈ passed ++ (table.walkBehind (.definition key) scope passed rest).1 ∨
          inner ∈ rest) ∨
      ∃ third ∈ table.definitionOf target, third.text = token.text := by
  induction passed, rest using walkBehind_induction table (.definition key) scope with
  | ended passed => cases member
  | hit passed first rest entry isHit ih =>
    rw [walkBehind_hit isHit, ← List.append_assoc]
    rcases List.mem_cons.mp member with rfl | behind
    · obtain ⟨meansEntry, spliced⟩ := meaning?_of_hit_behind isHit
      obtain rfl : entry.key = target := Option.some.inj (meansEntry.symm.trans means)
      rw [spliced]
      refine Or.inl fun inner inside => Or.inl ?_
      exact List.mem_append_left _ (List.mem_append_right _ inside)
    · refine (ih behind).imp_left fun around inner inside => ?_
      exact (around inner inside).imp_right (List.mem_cons_of_mem _)
  | pass passed first rest noHit ih =>
    rw [walkBehind_pass noHit, List.append_cons]
    rcases List.mem_cons.mp member with rfl | behind
    · obtain ⟨aim, resolved, rfl⟩ := meaning?_eq_some_iff.mp means
      rw [definitionOf_of_resolve? resolved]
      rcases guard?_ne_none_iff.mp (isHit_behind_eq_false_iff.mp noHit aim resolved) with
        own | occurs | spells
      · exact absurd (Option.some.inj own).symm foreign
      · obtain ⟨_, front, back, window⟩ := Token.occursIn_iff.mp occurs
        refine Or.inl fun inner inside => ?_
        have inWindow : inner ∈ passed ++ token :: rest := by
          rw [show passed ++ token :: rest = front ++ aim.definition ++ back from window]
          exact List.mem_append_left _ (List.mem_append_right _ inside)
        rcases List.mem_append.mp inWindow with before | behind
        · exact Or.inl (List.mem_append_left _ (List.mem_append_left _ before))
        · exact Or.inr behind
      · obtain ⟨third, isThird, sameText⟩ := exists_third_of_spellsOpening spells
        exact Or.inr ⟨third, List.mem_of_getElem? isThird, sameText⟩
    · refine (ih behind).imp_left fun around inner inside => ?_
      exact (around inner inside).imp_right (List.mem_cons_of_mem _)

end Walk

/-! ## What an expansion does to references -/

theorem refers_expandEntry_of_ne (shared : table.SharesScope scope) (different : target ≠ key) :
    (table.expandEntry key).1.Refers target further ↔ table.Refers target further := by
  rw [refers_iff (shared.expandEntry key), refers_iff shared, meaning?_expandEntry,
    definitionOf_expandEntry_of_ne different]

/-- The references of an alias that is expanded, as the walk over its definition leaves them. -/
theorem refers_expandEntry_iff (shared : table.SharesScope scope) :
    (table.expandEntry key).1.Refers key target ↔
      ∃ token ∈ (table.walkBehind (.definition key) scope [] (table.definitionOf key)).1,
        table.meaning? scope token.text = some target := by
  rw [refers_iff (shared.expandEntry key), meaning?_expandEntry,
    (definitionOf_expandEntry shared key).1]

/-- A reference after an expansion was there before or is one of an alias that was referred to. -/
theorem refers_of_refers_expandEntry (shared : table.SharesScope scope)
    (refers : (table.expandEntry key).1.Refers key target) :
    table.Refers key target ∨
      ∃ middle, table.Refers key middle ∧ table.Refers middle target := by
  obtain ⟨token, member, means⟩ := (refers_expandEntry_iff shared).mp refers
  rcases mem_of_mem_walkBehind member with there | ⟨origin, inside, middle, aims, spliced⟩
  · exact Or.inl ((refers_iff shared).mpr ⟨token, there, means⟩)
  · refine Or.inr ⟨middle, ?_, ?_⟩
    · exact (refers_iff shared).mpr ⟨origin, inside, aims⟩
    · exact (refers_iff shared).mpr ⟨token, spliced, means⟩

/-- A reference before an expansion is still there, or all references of its target are taken
over. -/
theorem refers_expandEntry (shared : table.SharesScope scope) {source : String} (key : String)
    (refers : table.Refers source target) :
    (table.expandEntry key).1.Refers source target ∨
      ∀ further, table.Refers target further → (table.expandEntry key).1.Refers source further := by
  by_cases same : source = key
  · subst same
    obtain ⟨token, member, means⟩ := (refers_iff shared).mp refers
    rcases mem_walkBehind_of_mem source [] member means with kept | spliced
    · exact Or.inl ((refers_expandEntry_iff shared).mpr ⟨token, kept, means⟩)
    · refine Or.inr fun further refersFurther => ?_
      obtain ⟨inner, inside, aims⟩ := (refers_iff shared).mp refersFurther
      exact (refers_expandEntry_iff shared).mpr ⟨inner, spliced inside, aims⟩
  · exact Or.inl ((refers_expandEntry_of_ne shared same).mpr refers)

/-- Where an alias refers to another, its own references lead around that other one, unless the
other refers to itself. -/
theorem refers_around (shared : table.SharesScope scope) (refers : table.Refers key target)
    (foreign : target ≠ key) :
    table.Refers target target ∨
      ∀ further, table.Refers target further →
        (table.expandEntry key).1.Refers key further ∨ table.Refers key further := by
  obtain ⟨token, member, means⟩ := (refers_iff shared).mp refers
  rcases definition_around_walkBehind [] member means foreign with
    around | ⟨third, inside, sameText⟩
  · refine Or.inr fun further refersFurther => ?_
    obtain ⟨inner, inside, aims⟩ := (refers_iff shared).mp refersFurther
    rcases around inner inside with afterwards | before
    · exact Or.inl ((refers_expandEntry_iff shared).mpr ⟨inner, afterwards, aims⟩)
    · exact Or.inr ((refers_iff shared).mpr ⟨inner, before, aims⟩)
  · exact Or.inl ((refers_iff shared).mpr ⟨third, inside, sameText ▸ means⟩)

/-- Expansion opens no way that was not there: its references lead along old ones. -/
theorem transGen_of_refers_expandEntry (shared : table.SharesScope scope)
    (refers : (table.expandEntry key).1.Refers target further) :
    TransGen table.Refers target further := by
  by_cases same : target = key
  · subst same
    rcases refers_of_refers_expandEntry shared refers with there | ⟨middle, first, second⟩
    · exact .single there
    · exact .tail (.single first) second
  · exact .single ((refers_expandEntry_of_ne shared same).mp refers)

end AliasTable

end ApiReference
