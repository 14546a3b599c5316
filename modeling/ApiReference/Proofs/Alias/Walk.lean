import ApiReference.Proofs.Alias.Scan
import Mathlib.Data.List.Basic

/-!
# Walks from the place they have reached

A walk has a place in the list it goes over.  What stands before that place is as it will be in the
end, and what stands behind it is as it was in the beginning.  `walkBehind` goes by these two parts,
and by recursion on the second; it is the walk that goes by positions (`scanFrom_append`).  What its
three steps keep, a walk keeps (`walkBehind_induction`).

A guard then speaks of the parts of its window: an alias is held back if its definition stands in
them, or if the token and the two before it spell the first three tokens of its definition
(`spellsOpening_behind_iff`).
-/

set_option autoImplicit false

namespace ApiReference

variable {before after : List Token} {token : Token}

/-! ## Guards -/

theorem range_behind (outer after : List Token) (first second token : Token) :
    Token.range ((outer ++ [first, second]).length - 2) ((outer ++ [first, second]).length + 1)
      (outer ++ [first, second] ++ token :: after) = [first, second, token] := by
  have whole : outer ++ [first, second] ++ token :: after =
      outer ++ (first :: second :: token :: after) := by simp
  have stop : (outer ++ [first, second]).length + 1 = outer.length + 3 := by simp
  have start : (outer ++ [first, second]).length - 2 = outer.length := by simp
  rw [whole, stop, start, Token.range, List.take_length_add_append, List.drop_left]
  rfl

/-- The spelling that a definition opens with ends at a token, and two tokens stand before it. -/
theorem spellsOpening_behind_iff {definition : List Token} :
    spellsOpening (before ++ token :: after) before.length definition = true ↔
      ∃ outer first second, before = outer ++ [first, second] ∧
        (definition.take 3).map Token.text = [first.text, second.text, token.text] := by
  simp only [spellsOpening, Token.sameTexts, Bool.and_eq_true, decide_eq_true_eq]
  constructor
  · rintro ⟨⟨_, deep⟩, same⟩
    obtain rfl | ⟨front, second, rfl⟩ := before.eq_nil_or_concat
    · contradiction
    obtain rfl | ⟨outer, first, rfl⟩ := front.eq_nil_or_concat
    · contradiction
    simp only [List.concat_eq_append, List.append_assoc, List.cons_append, List.nil_append] at same ⊢
    refine ⟨outer, first, second, rfl, ?_⟩
    rw [← same]
    have opening := range_behind outer after first second token
    simp only [List.append_assoc, List.cons_append, List.nil_append] at opening
    rw [opening]
    rfl
  · rintro ⟨outer, first, second, rfl, same⟩
    have long := congrArg List.length same
    simp only [List.length_map, List.length_take, List.length_cons, List.length_nil] at long
    refine ⟨⟨by omega, by simp⟩, ?_⟩
    rw [range_behind, same]
    rfl

/-- The spelling is seen from the tokens before its end alone, however far they reach. -/
theorem spellsOpening_behind_append {definition : List Token} (outer inner : List Token)
    (spells : spellsOpening (before ++ token :: inner) before.length definition = true) :
    spellsOpening (outer ++ before ++ token :: after) (outer ++ before).length definition = true := by
  obtain ⟨front, first, second, rfl, same⟩ := spellsOpening_behind_iff.mp spells
  refine spellsOpening_behind_iff.mpr ⟨outer ++ front, first, second, ?_, same⟩
  rw [List.append_assoc]

/-- The third token of the definition spells the token. -/
theorem exists_third_of_spellsOpening {definition : List Token}
    (spells : spellsOpening (before ++ token :: after) before.length definition = true) :
    ∃ third, definition[2]? = some third ∧ third.text = token.text := by
  obtain ⟨_, first, second, _, same⟩ := spellsOpening_behind_iff.mp spells
  have ending := congrArg (·[2]?) same
  simpa using ending

namespace AliasTable

variable {table : AliasTable} {mode : ScanMode} {scope : Scope}

theorem guard?_ne_none_iff {window : List Token} {position : Nat} {ownKey? : Option String}
    {entry : Alias} :
    guard? window position ownKey? entry ≠ none ↔
      ownKey? = some entry.key ∨ Token.occursIn entry.definition window = true ∨
        spellsOpening window position entry.definition = true := by
  unfold guard?
  split_ifs with own occurs spells <;> simp [*]

/-- A token does not hit exactly if it resolves to no alias but one that is held back. -/
theorem isHit_behind_eq_false_iff {ownKey? : Option String} :
    (table.lookup (before ++ token :: after) before.length scope ownKey?).isHit = false ↔
      ∀ entry, table.resolve? token.text scope = some entry →
        guard? (before ++ token :: after) before.length ownKey? entry ≠ none := by
  rw [isHit_lookup_eq_false_iff]
  constructor
  · intro held entry resolved
    exact held token entry (by simp) resolved
  · intro held found entry present resolved
    obtain rfl : token = found := by simpa using present
    exact held entry resolved

theorem resolve?_of_hit_behind {ownKey? : Option String} {entry : Alias}
    (hit : table.lookup (before ++ token :: after) before.length scope ownKey? = .hit entry) :
    table.resolve? token.text scope = some entry ∧
      guard? (before ++ token :: after) before.length ownKey? entry = none := by
  obtain ⟨found, present, resolved, unguarded⟩ := lookup_eq_hit hit
  obtain rfl : token = found := by simpa using present
  exact ⟨resolved, unguarded⟩

/-! ## The walk -/

/-- The walk over what stands behind the tokens that are passed: what becomes of it, and whether
anything was substituted. -/
def walkBehind (table : AliasTable) (mode : ScanMode) (scope : Scope) (passed : List Token) :
    List Token → List Token × Bool
  | [] => ([], false)
  | token :: rest =>
    let spelled := mode.spelling token
    match table.lookup (passed ++ spelled :: rest) passed.length scope mode.ownKey? with
    | .hit entry =>
      let (result, _) := table.walkBehind mode scope (passed ++ entry.definition) rest
      (entry.definition ++ result, true)
    | _ =>
      let (result, changed) := table.walkBehind mode scope (passed ++ [spelled]) rest
      (spelled :: result, changed)

variable {passed rest : List Token}

@[simp]
theorem walkBehind_nil : table.walkBehind mode scope passed [] = ([], false) := rfl

theorem walkBehind_hit {entry : Alias}
    (hit : table.lookup (passed ++ mode.spelling token :: rest) passed.length scope mode.ownKey? =
      .hit entry) :
    table.walkBehind mode scope passed (token :: rest) =
      (entry.definition ++ (table.walkBehind mode scope (passed ++ entry.definition) rest).1,
        true) := by
  rw [walkBehind]
  simp only [hit]

theorem walkBehind_pass
    (noHit : (table.lookup (passed ++ mode.spelling token :: rest) passed.length scope
      mode.ownKey?).isHit = false) :
    table.walkBehind mode scope passed (token :: rest) =
      (mode.spelling token ::
          (table.walkBehind mode scope (passed ++ [mode.spelling token]) rest).1,
        (table.walkBehind mode scope (passed ++ [mode.spelling token]) rest).2) := by
  rw [walkBehind]
  cases outcome : table.lookup (passed ++ mode.spelling token :: rest) passed.length scope
      mode.ownKey? with
  | miss => rfl
  | guarded entry guard => rfl
  | hit entry =>
    rw [outcome] at noHit
    contradiction

/-- What each of the three steps keeps holds of every walk. -/
@[elab_as_elim]
theorem walkBehind_induction (table : AliasTable) (mode : ScanMode) (scope : Scope)
    {motive : List Token → List Token → Prop}
    (ended : ∀ passed, motive passed [])
    (hit : ∀ passed token rest entry,
      table.lookup (passed ++ mode.spelling token :: rest) passed.length scope mode.ownKey? =
        .hit entry →
      motive (passed ++ entry.definition) rest → motive passed (token :: rest))
    (pass : ∀ passed token rest,
      (table.lookup (passed ++ mode.spelling token :: rest) passed.length scope
        mode.ownKey?).isHit = false →
      motive (passed ++ [mode.spelling token]) rest → motive passed (token :: rest))
    (passed rest : List Token) : motive passed rest := by
  induction rest generalizing passed with
  | nil => exact ended passed
  | cons token rest ih =>
    cases outcome : table.lookup (passed ++ mode.spelling token :: rest) passed.length scope
        mode.ownKey? with
    | hit entry => exact hit passed token rest entry outcome (ih _)
    | miss => exact pass passed token rest (by rw [outcome]; rfl) (ih _)
    | guarded entry guard => exact pass passed token rest (by rw [outcome]; rfl) (ih _)

theorem modify_behind (passed : List Token) (token : Token) (rest : List Token) :
    (passed ++ token :: rest).modify passed.length mode.spelling =
      passed ++ mode.spelling token :: rest := by
  simp [List.modify_eq_take_cons_drop]

theorem splice_behind (passed definition : List Token) (token : Token) (rest : List Token) :
    Token.splice passed.length definition (passed ++ token :: rest) =
      passed ++ definition ++ rest := by
  simp [Token.splice]

/-- The walk by positions is the walk behind the tokens before its position. -/
theorem scanFrom_append (passed rest : List Token) :
    table.scanFrom mode scope passed.length (passed ++ rest) =
      (passed ++ (table.walkBehind mode scope passed rest).1,
        (table.walkBehind mode scope passed rest).2) := by
  induction passed, rest using walkBehind_induction table mode scope with
  | ended passed =>
    rw [scanFrom_end (by simp)]
    rfl
  | hit passed token rest entry isHit ih =>
    have inside : passed.length < (passed ++ token :: rest).length := by simp
    rw [scanFrom_hit inside (by rw [modify_behind]; exact isHit), walkBehind_hit isHit,
      modify_behind, splice_behind, ← List.length_append, ih, List.append_assoc]
  | pass passed token rest noHit ih =>
    have inside : passed.length < (passed ++ token :: rest).length := by simp
    rw [scanFrom_pass inside (by rw [modify_behind]; exact noHit), walkBehind_pass noHit,
      modify_behind]
    have next : passed ++ mode.spelling token :: rest =
        passed ++ [mode.spelling token] ++ rest := by simp
    rw [next, show passed.length + 1 = (passed ++ [mode.spelling token]).length by simp, ih]
    simp

/-- Substituting is walking from the start. -/
theorem substitute_eq_walkBehind (tokens : List Token) :
    table.substitute mode scope tokens = table.walkBehind mode scope [] tokens :=
  scanFrom_append [] tokens

end AliasTable

end ApiReference
