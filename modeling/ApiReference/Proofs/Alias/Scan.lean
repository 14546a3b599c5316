import ApiReference.Alias.Substitution
import ApiReference.Proofs.Alias.Table
import Mathlib.Tactic.SplitIfs

/-!
# Walks over a definition

The walk over a list of tokens takes one of three steps: it ends behind the last token, it puts a
definition in the place of a token that hits, or it passes a token that does not.  The definition of
an alias is walked over as it stands.  Such a walk is quiet exactly if no token hits, and then it
leaves the list alone (`quiet_iff`, `substitute_of_quiet`).  Whatever it does, it makes up no token:
what stands in the result stood in the list or in the definition of some alias
(`mem_scanFrom_definition`).
-/

set_option autoImplicit false

namespace ApiReference

namespace AliasTable

variable {table : AliasTable} {mode : ScanMode} {scope : Scope} {position : Nat}
  {tokens : List Token}

/-! ## Lookups -/

theorem mem_of_resolve? {name : String} {entry : Alias}
    (resolved : table.resolve? name scope = some entry) : entry ∈ table.entries := by
  obtain ⟨key, _, found⟩ := List.exists_of_findSome?_eq_some resolved
  exact (find?_some found).1

/-- A hit is an alias that the token resolves to and that no guard holds back. -/
theorem lookup_eq_hit {ownKey? : Option String} {entry : Alias}
    (hit : table.lookup tokens position scope ownKey? = .hit entry) :
    ∃ token, tokens[position]? = some token ∧ table.resolve? token.text scope = some entry ∧
      guard? tokens position ownKey? entry = none := by
  unfold lookup at hit
  split at hit
  · contradiction
  · rename_i token present
    split at hit
    · contradiction
    · rename_i target resolved
      split at hit
      · contradiction
      · rename_i unguarded
        obtain rfl := Lookup.hit.inj hit
        exact ⟨token, present, resolved, unguarded⟩

/-- A token does not hit exactly if some guard holds back the alias that it resolves to. -/
theorem isHit_lookup_eq_false_iff {ownKey? : Option String} :
    (table.lookup tokens position scope ownKey?).isHit = false ↔
      ∀ token entry, tokens[position]? = some token → table.resolve? token.text scope = some entry →
        guard? tokens position ownKey? entry ≠ none := by
  constructor
  · intro noHit token entry present resolved unguarded
    simp [lookup, present, resolved, unguarded, Lookup.isHit] at noHit
  · intro held
    cases outcome : table.lookup tokens position scope ownKey? with
    | miss => rfl
    | guarded entry guard => rfl
    | hit entry =>
      obtain ⟨token, present, resolved, unguarded⟩ := lookup_eq_hit outcome
      exact absurd unguarded (held token entry present resolved)

theorem lookup_eq_guarded_iff {ownKey? : Option String} {entry : Alias} {guard : Guard} :
    table.lookup tokens position scope ownKey? = .guarded entry guard ↔
      ∃ token, tokens[position]? = some token ∧ table.resolve? token.text scope = some entry ∧
        guard? tokens position ownKey? entry = some guard := by
  unfold lookup
  constructor
  · intro guarded
    split at guarded
    · contradiction
    · rename_i token present
      split at guarded
      · contradiction
      · rename_i target resolved
        split at guarded
        · rename_i held
          obtain ⟨rfl, rfl⟩ := Lookup.guarded.inj guarded
          exact ⟨token, present, resolved, held⟩
        · contradiction
  · rintro ⟨token, present, resolved, held⟩
    simp only [present, resolved, held]

theorem guard?_eq_ownKey_iff {ownKey? : Option String} {entry : Alias} :
    guard? tokens position ownKey? entry = some .ownKey ↔ ownKey? = some entry.key := by
  unfold guard?
  split_ifs with own <;> simp [own]

/-- Whether an alias is held back depends on its key and its definition. -/
theorem guard?_congr {ownKey? : Option String} {entry other : Alias}
    (sameKey : entry.key = other.key) (sameDefinition : entry.definition = other.definition) :
    guard? tokens position ownKey? entry = guard? tokens position ownKey? other := by
  unfold guard?
  rw [sameKey, sameDefinition]

/-! ## The steps of a walk -/

theorem scanFrom_end (outside : tokens.length ≤ position) :
    table.scanFrom mode scope position tokens = (tokens, false) := by
  rw [scanFrom, dif_neg (Nat.not_lt.mpr outside)]

/-- A token that hits is replaced, and the walk goes on behind the definition. -/
theorem scanFrom_hit {entry : Alias} (inside : position < tokens.length)
    (hit : table.lookup (tokens.modify position mode.spelling) position scope mode.ownKey? =
      .hit entry) :
    table.scanFrom mode scope position tokens =
      ((table.scanFrom mode scope (position + entry.definition.length)
        (Token.splice position entry.definition (tokens.modify position mode.spelling))).1,
        true) := by
  rw [scanFrom, dif_pos inside]
  simp only [hit]

/-- A token that does not hit is passed. -/
theorem scanFrom_pass (inside : position < tokens.length)
    (noHit : (table.lookup (tokens.modify position mode.spelling) position scope
      mode.ownKey?).isHit = false) :
    table.scanFrom mode scope position tokens =
      table.scanFrom mode scope (position + 1) (tokens.modify position mode.spelling) := by
  rw [scanFrom, dif_pos inside]
  cases outcome : table.lookup (tokens.modify position mode.spelling) position scope
      mode.ownKey? with
  | miss => simp only [outcome]
  | guarded entry guard => simp only [outcome]
  | hit entry =>
    rw [outcome] at noHit
    contradiction

/-- What each of the three steps keeps holds of every walk. -/
@[elab_as_elim]
theorem walk_induction (table : AliasTable) (mode : ScanMode) (scope : Scope)
    {motive : Nat → List Token → Prop}
    (ended : ∀ position tokens, tokens.length ≤ position → motive position tokens)
    (hit : ∀ position tokens entry, position < tokens.length →
      table.lookup (tokens.modify position mode.spelling) position scope mode.ownKey? =
        .hit entry →
      motive (position + entry.definition.length)
        (Token.splice position entry.definition (tokens.modify position mode.spelling)) →
      motive position tokens)
    (pass : ∀ position tokens, position < tokens.length →
      (table.lookup (tokens.modify position mode.spelling) position scope mode.ownKey?).isHit =
        false →
      motive (position + 1) (tokens.modify position mode.spelling) → motive position tokens)
    (position : Nat) (tokens : List Token) : motive position tokens := by
  induction position, tokens using scanFrom.induct table mode scope with
  | case1 position tokens inside window entry isHit _ _ _ ih =>
    exact hit position tokens entry inside isHit ih
  | case2 position tokens inside window noHit ih =>
    refine pass position tokens inside ?_ ih
    cases outcome : table.lookup window position scope mode.ownKey? with
    | miss => rfl
    | guarded entry guard => rfl
    | hit entry => exact (noHit entry outcome).elim
  | case3 position tokens outside => exact ended position tokens (Nat.not_lt.mp outside)

@[simp]
theorem modify_spelling_definition (key : String) (position : Nat) (tokens : List Token) :
    tokens.modify position (ScanMode.definition key).spelling = tokens :=
  List.modify_id position tokens

/-! ## Quiet walks -/

/-- No token of the list hits. -/
def Quiet (table : AliasTable) (key : String) (scope : Scope) (tokens : List Token) : Prop :=
  ∀ position, (table.lookup tokens position scope (some key)).isHit = false

theorem isHit_lookup_of_length_le {ownKey? : Option String} (outside : tokens.length ≤ position) :
    (table.lookup tokens position scope ownKey?).isHit = false := by
  rw [lookup, List.getElem?_eq_none outside]
  rfl

/-- A walk over a definition reports nothing exactly if no token hits from its start on. -/
theorem scanFrom_definition_eq_false_iff {key : String} :
    (table.scanFrom (.definition key) scope position tokens).2 = false ↔
      ∀ later, position ≤ later → (table.lookup tokens later scope (some key)).isHit = false := by
  induction position, tokens using walk_induction table (.definition key) scope with
  | ended position tokens outside =>
    rw [scanFrom_end outside]
    exact iff_of_true rfl fun later le =>
      isHit_lookup_of_length_le (Nat.le_trans outside le)
  | hit position tokens entry inside isHit _ =>
    rw [scanFrom_hit inside isHit]
    rw [modify_spelling_definition] at isHit
    refine iff_of_false Bool.noConfusion fun quiet => ?_
    have noHit := quiet position (Nat.le_refl _)
    rw [show table.lookup tokens position scope (some key) = .hit entry from isHit] at noHit
    contradiction
  | pass position tokens inside noHit ih =>
    rw [scanFrom_pass inside noHit]
    rw [modify_spelling_definition] at noHit ih ⊢
    rw [ih]
    constructor
    · intro quiet later le
      rcases Nat.eq_or_lt_of_le le with rfl | lt
      · exact noHit
      · exact quiet later lt
    · intro quiet later lt
      exact quiet later (Nat.le_of_succ_le lt)

/-- A walk over a definition that reports nothing leaves it alone. -/
theorem scanFrom_definition_of_eq_false {key : String}
    (quiet : (table.scanFrom (.definition key) scope position tokens).2 = false) :
    (table.scanFrom (.definition key) scope position tokens).1 = tokens := by
  induction position, tokens using walk_induction table (.definition key) scope with
  | ended position tokens outside => rw [scanFrom_end outside]
  | hit position tokens entry inside isHit _ =>
    rw [scanFrom_hit inside isHit] at quiet
    contradiction
  | pass position tokens inside noHit ih =>
    rw [scanFrom_pass inside noHit] at quiet ⊢
    rw [modify_spelling_definition] at quiet ih ⊢
    exact ih quiet

/-- Substituting into a definition reports nothing exactly if the definition is quiet. -/
theorem quiet_iff {key : String} :
    (table.substitute (.definition key) scope tokens).2 = false ↔ table.Quiet key scope tokens := by
  rw [substitute, scanFrom_definition_eq_false_iff, Quiet]
  simp only [Nat.zero_le, forall_const]

/-- Substituting leaves a quiet definition alone. -/
theorem substitute_of_quiet {key : String} (quiet : table.Quiet key scope tokens) :
    table.substitute (.definition key) scope tokens = (tokens, false) := by
  have reported := quiet_iff.mpr quiet
  exact Prod.ext (scanFrom_definition_of_eq_false reported) reported

/-! ## Where tokens come from -/

/-- The token stands in the definition of some alias of the table. -/
def HasToken (table : AliasTable) (token : Token) : Prop :=
  ∃ entry ∈ table.entries, token ∈ entry.definition

/-- A walk over a definition makes up no token. -/
theorem mem_scanFrom_definition {key : String} {token : Token}
    (member : token ∈ (table.scanFrom (.definition key) scope position tokens).1) :
    token ∈ tokens ∨ table.HasToken token := by
  induction position, tokens using walk_induction table (.definition key) scope with
  | ended position tokens outside =>
    rw [scanFrom_end outside] at member
    exact Or.inl member
  | hit position tokens entry inside isHit ih =>
    rw [scanFrom_hit inside isHit] at member
    obtain ⟨_, _, resolved, _⟩ := lookup_eq_hit isHit
    rcases ih member with spliced | elsewhere
    · rw [modify_spelling_definition] at spliced
      rcases Token.mem_of_mem_splice spliced with replaced | kept
      · exact Or.inr ⟨entry, mem_of_resolve? resolved, replaced⟩
      · exact Or.inl kept
    · exact Or.inr elsewhere
  | pass position tokens inside noHit ih =>
    rw [scanFrom_pass inside noHit] at member
    rw [modify_spelling_definition] at member ih
    exact ih member

end AliasTable

end ApiReference
