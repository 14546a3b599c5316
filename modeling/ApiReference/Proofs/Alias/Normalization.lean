import ApiReference.Alias.Closure
import ApiReference.Proofs.Alias.Walk

/-!
# Normalizing a type twice

A list of tokens is normal, as seen from a scope, if no token of it carries the suffix of parameter
types or hits.  Normalizing leaves exactly the normal lists alone (`isNormal_iff`).

A table is settled in a scope if the definitions of its aliases are normal.  Such a definition stays
where it stands in the window of a walk, also where the walk has not been yet: its own tokens are
held back by what stands in it (`occursIn_of_pass`, `occursIn_of_hit`).  So what holds back a token
once holds it back to the end, and normalizing over a settled table makes a list normal
(`isNormal_walkBehind`), provided that no token carries the suffix twice.
-/

set_option autoImplicit false

namespace ApiReference

namespace Token

variable {part before rest : List Token} {token : Token}

/-- What stands in a list stands in every longer one. -/
theorem occursIn_append (outer following : List Token) (occurs : occursIn part before = true) :
    occursIn part (outer ++ before ++ following) = true := by
  obtain ⟨nonempty, front, back, rfl⟩ := occursIn_iff.mp occurs
  refine occursIn_iff.mpr ⟨nonempty, outer ++ front, back ++ following, ?_⟩
  simp only [List.append_assoc]

/-- What stands in a list stands before a token of it, or behind it, or goes over it. -/
theorem occursIn_behind (occurs : occursIn part (before ++ token :: rest) = true) :
    occursIn part before = true ∨ occursIn part rest = true ∨
      ∃ front left right back, before = front ++ left ∧ part = left ++ token :: right ∧
        rest = right ++ back := by
  obtain ⟨nonempty, front, back, equal⟩ := occursIn_iff.mp occurs
  rw [List.append_assoc] at equal
  rcases List.append_eq_append_iff.mp equal with ⟨gap, rfl, later⟩ | ⟨left, rfl, later⟩
  · cases gap with
    | nil =>
      cases part with
      | nil => contradiction
      | cons first right =>
        obtain ⟨rfl, rfl⟩ := List.cons.inj later
        exact Or.inr (Or.inr ⟨before, [], right, back, by simp, rfl, rfl⟩)
    | cons first gap =>
      obtain ⟨rfl, rfl⟩ := List.cons.inj later
      exact Or.inr (Or.inl (occursIn_iff.mpr ⟨nonempty, gap, back, by simp⟩))
  · rcases List.append_eq_append_iff.mp later with ⟨gap, rfl, _⟩ | ⟨right, rfl, ending⟩
    · exact Or.inl (occursIn_iff.mpr ⟨nonempty, front, gap, by simp⟩)
    · cases right with
      | nil =>
        refine Or.inl (occursIn_iff.mpr ⟨nonempty, front, [], by simp⟩)
      | cons first right =>
        obtain ⟨rfl, rfl⟩ := List.cons.inj ending
        exact Or.inr (Or.inr ⟨front, left, right, back, rfl, rfl, rfl⟩)

end Token

namespace AliasTable

/-- The token carries no suffix and does not hit where it stands. -/
structure Held (table : AliasTable) (scope : Scope) (before : List Token) (token : Token)
    (after : List Token) : Prop where
  stripped : token.stripped = token
  noHit : (table.lookup (before ++ token :: after) before.length scope none).isHit = false

/-- All tokens of a part are held where it stands. -/
def AllHeld (table : AliasTable) (scope : Scope) (before part after : List Token) : Prop :=
  ∀ left token right, part = left ++ token :: right →
    table.Held scope (before ++ left) token (right ++ after)

/-- All tokens of the list are held. -/
def IsNormal (table : AliasTable) (scope : Scope) (tokens : List Token) : Prop :=
  table.AllHeld scope [] tokens []

/-- The definitions of the table are normal. -/
def IsSettledIn (table : AliasTable) (scope : Scope) : Prop :=
  ∀ entry ∈ table.entries, table.IsNormal scope entry.definition

variable {table : AliasTable} {scope : Scope} {before after part passed rest : List Token}
  {token : Token}

/-! ## Parts of a window -/

/-- A token stays held in a window that goes on in another way, if the definitions that stand in the
window go on standing in it. -/
theorem Held.congr_after (held : table.Held scope before token rest)
    (kept : ∀ entry ∈ table.entries,
      Token.occursIn entry.definition (before ++ token :: rest) = true →
        Token.occursIn entry.definition (before ++ token :: after) = true) :
    table.Held scope before token after := by
  refine ⟨held.stripped, isHit_behind_eq_false_iff.mpr fun entry resolved => ?_⟩
  rcases guard?_ne_none_iff.mp (isHit_behind_eq_false_iff.mp held.noHit entry resolved) with
    own | occurs | spells
  · contradiction
  · exact guard?_ne_none_iff.mpr (Or.inr (Or.inl (kept entry (mem_of_resolve? resolved) occurs)))
  · exact guard?_ne_none_iff.mpr (Or.inr (Or.inr (spellsOpening_behind_append [] rest spells)))

/-- A token stays held in every longer window. -/
theorem Held.append (outer following : List Token) (held : table.Held scope before token after) :
    table.Held scope (outer ++ before) token (after ++ following) := by
  refine ⟨held.stripped, isHit_behind_eq_false_iff.mpr fun entry resolved => ?_⟩
  rcases guard?_ne_none_iff.mp (isHit_behind_eq_false_iff.mp held.noHit entry resolved) with
    own | occurs | spells
  · contradiction
  · refine guard?_ne_none_iff.mpr (Or.inr (Or.inl ?_))
    have longer := Token.occursIn_append outer following occurs
    simpa only [List.append_assoc, List.cons_append] using longer
  · exact guard?_ne_none_iff.mpr (Or.inr (Or.inr (spellsOpening_behind_append outer after spells)))

theorem allHeld_singleton (held : table.Held scope before token after) :
    table.AllHeld scope before [token] after := by
  intro left other right equal
  cases left with
  | nil =>
    obtain ⟨rfl, rfl⟩ := List.cons.inj equal
    simpa using held
  | cons first left => simp at equal

theorem AllHeld.append_part {more : List Token}
    (first : table.AllHeld scope before part (more ++ after))
    (second : table.AllHeld scope (before ++ part) more after) :
    table.AllHeld scope before (part ++ more) after := by
  intro left token right equal
  rcases List.append_eq_append_iff.mp equal with ⟨gap, rfl, inSecond⟩ | ⟨gap, rfl, inFirst⟩
  · have held := second gap token right inSecond
    rwa [List.append_assoc] at held
  · cases gap with
    | nil =>
      have held := second [] token right inFirst.symm
      simpa using held
    | cons other gap =>
      obtain ⟨rfl, rfl⟩ := List.cons.inj inFirst
      have held := first left token gap rfl
      rwa [← List.append_assoc] at held

theorem AllHeld.append_context (outer following : List Token)
    (held : table.AllHeld scope before part after) :
    table.AllHeld scope (outer ++ before) part (after ++ following) := by
  intro left token right equal
  have longer := (held left token right equal).append outer following
  rwa [← List.append_assoc, List.append_assoc right] at longer

theorem AllHeld.congr_after (held : table.AllHeld scope [] passed rest)
    (kept : ∀ entry ∈ table.entries, Token.occursIn entry.definition (passed ++ rest) = true →
      Token.occursIn entry.definition (passed ++ after) = true) :
    table.AllHeld scope [] passed after := by
  intro left token right equal
  refine (held left token right equal).congr_after fun entry member occurs => ?_
  subst equal
  have known := kept entry member
  simp only [List.append_assoc, List.cons_append, List.nil_append] at known occurs ⊢
  exact known occurs

/-! ## Normal lists -/

/-- A walk changes nothing exactly if all tokens are held from its place on. -/
theorem walkBehind_declaration_eq_iff :
    table.walkBehind .declaration scope passed rest = (rest, false) ↔
      table.AllHeld scope passed rest [] := by
  induction passed, rest using walkBehind_induction table .declaration scope with
  | ended passed =>
    refine iff_of_true rfl fun left token right equal => ?_
    simp at equal
  | hit passed token rest entry isHit _ =>
    rw [walkBehind_hit isHit]
    refine iff_of_false (fun same => Bool.noConfusion (Prod.ext_iff.mp same).2) fun held => ?_
    obtain ⟨stripped, noHit⟩ := held [] token rest rfl
    have spelled : ScanMode.declaration.spelling token = token := stripped
    rw [spelled] at isHit
    simp only [List.append_nil] at noHit
    rw [show table.lookup (passed ++ token :: rest) passed.length scope none = .hit entry from
      isHit] at noHit
    contradiction
  | pass passed token rest noHit ih =>
    rw [walkBehind_pass noHit]
    constructor
    · intro same
      obtain ⟨sameTokens, unchanged⟩ := Prod.ext_iff.mp same
      obtain ⟨stripped, sameRest⟩ := List.cons.inj sameTokens
      have spelled : ScanMode.declaration.spelling token = token := stripped
      rw [spelled] at noHit ih sameRest unchanged
      show table.AllHeld scope passed ([token] ++ rest) []
      refine AllHeld.append_part ?_ ?_
      · exact allHeld_singleton ⟨stripped, by rwa [List.append_nil]⟩
      · exact ih.mp (Prod.ext sameRest unchanged)
    · intro held
      have stripped := (held [] token rest rfl).stripped
      have spelled : ScanMode.declaration.spelling token = token := stripped
      rw [spelled] at ih ⊢
      have behind : table.AllHeld scope (passed ++ [token]) rest [] := by
        intro left other right equal
        have heldThere := held (token :: left) other right (by rw [equal]; rfl)
        simpa using heldThere
      rw [ih.mpr behind]

theorem isNormal_iff {tokens : List Token} :
    table.IsNormal scope tokens ↔
      table.substitute .declaration scope tokens = (tokens, false) := by
  rw [substitute_eq_walkBehind, walkBehind_declaration_eq_iff]
  rfl

/-! ## Walks over a settled table -/

/-- Taking a suffix off breaks no definition that stands in the window. -/
theorem occursIn_of_pass (settled : table.IsSettledIn scope) {entry : Alias}
    (member : entry ∈ table.entries)
    (occurs : Token.occursIn entry.definition (passed ++ token :: rest) = true) :
    Token.occursIn entry.definition (passed ++ token.stripped :: rest) = true := by
  rcases Token.occursIn_behind occurs with before | behind | ⟨front, left, right, back, _, inside, _⟩
  · simpa using Token.occursIn_append [] (token.stripped :: rest) before
  · simpa using Token.occursIn_append (passed ++ [token.stripped]) [] behind
  · have held := settled entry member left token right inside
    rw [held.stripped]
    exact occurs

/-- A substitution breaks no definition that stands in the window: a token of a definition does not
hit there. -/
theorem occursIn_of_hit (settled : table.IsSettledIn scope) {entry target : Alias}
    (member : entry ∈ table.entries)
    (hit : table.lookup (passed ++ token :: rest) passed.length scope none = .hit target)
    (occurs : Token.occursIn entry.definition (passed ++ token :: rest) = true) :
    Token.occursIn entry.definition (passed ++ target.definition ++ rest) = true := by
  rcases Token.occursIn_behind occurs with
    before | behind | ⟨front, left, right, back, rfl, inside, rfl⟩
  · simpa using Token.occursIn_append [] (target.definition ++ rest) before
  · simpa using Token.occursIn_append (passed ++ target.definition) [] behind
  · have held := (settled entry member left token right inside).append front back
    have noHit := held.noHit
    simp only [List.nil_append, List.append_nil] at noHit
    rw [hit] at noHit
    contradiction

/-- A walk that has passed nothing but held tokens leaves nothing but held tokens. -/
theorem isNormal_walkBehind (settled : table.IsSettledIn scope)
    (once : ∀ token ∈ rest, token.stripped.stripped = token.stripped)
    (held : table.AllHeld scope [] passed rest) :
    table.IsNormal scope (passed ++ (table.walkBehind .declaration scope passed rest).1) := by
  induction passed, rest using walkBehind_induction table .declaration scope with
  | ended passed =>
    rw [walkBehind_nil, List.append_nil]
    exact held
  | hit passed token rest target isHit ih =>
    rw [walkBehind_hit isHit, ← List.append_assoc]
    refine ih (fun other later => once other (List.mem_cons_of_mem _ later)) ?_
    refine AllHeld.append_part ?_ ?_
    · refine held.congr_after fun entry member occurs => ?_
      have stripped := occursIn_of_pass settled member occurs
      rw [← List.append_assoc]
      exact occursIn_of_hit settled member isHit stripped
    · have inTable := mem_of_resolve? (resolve?_of_hit_behind isHit).1
      have inside := (settled target inTable).append_context passed rest
      simpa using inside
  | pass passed token rest noHit ih =>
    rw [walkBehind_pass noHit, List.append_cons]
    refine ih (fun other later => once other (List.mem_cons_of_mem _ later)) ?_
    refine AllHeld.append_part ?_ ?_
    · exact held.congr_after fun entry member occurs => occursIn_of_pass settled member occurs
    · exact allHeld_singleton ⟨once token List.mem_cons_self, noHit⟩

end AliasTable

/-! ## Normalizing twice -/

/-- Normalizing once is normalizing for good over a table whose definitions it leaves alone, if no
token of the type carries the suffix of parameter types twice. -/
theorem ExpandedTable.normalize_normalized {expanded : ExpandedTable} {scope : Scope}
    (settled : ∀ entry ∈ expanded.table.entries,
      expanded.normalize scope entry.definition = (entry.definition, false))
    {tokens : List Token}
    (once : ∀ token ∈ tokens, token.stripped.stripped = token.stripped) :
    expanded.normalize scope (expanded.normalized scope tokens) =
      (expanded.normalized scope tokens, false) := by
  have normalDefinitions : expanded.table.IsSettledIn scope := fun entry member =>
    AliasTable.isNormal_iff.mpr (settled entry member)
  refine AliasTable.isNormal_iff.mp ?_
  have nothingPassed : expanded.table.AllHeld scope [] [] tokens := by
    intro left token right equal
    simp at equal
  have normal := AliasTable.isNormal_walkBehind normalDefinitions once nothingPassed
  rwa [← AliasTable.substitute_eq_walkBehind] at normal

/-- `Handle` opens its own definition, and `Real` is a word.  The first `Handle` of the type is
expanded, since the spelling further behind carries a suffix at that time; the second is held back
when the walk has come to it. -/
theorem ExpandedTable.normalize_normalized_suffixed :
    let table :=
      (AliasTable.empty.insertAll
        [⟨.outermost, "Handle", tokenize "Math :: Handle"⟩,
          ⟨.outermost, "Real", tokenize "double"⟩]).1
    let expanded : ExpandedTable := ⟨table, ⟨1, 0, []⟩⟩
    let tokens := tokenize "const RealParam & Handle Math :: HandleParam"
    let normal := tokenize "const double & Math :: Handle Math :: Handle"
    (∀ entry ∈ table.entries,
        expanded.normalize .outermost entry.definition = (entry.definition, false)) ∧
      (∀ token ∈ tokens, token.stripped.stripped = token.stripped) ∧
      expanded.normalize .outermost tokens = (normal, true) ∧
      expanded.normalize .outermost normal = (normal, false) := by
  intro table expanded tokens normal
  have settled : ∀ entry ∈ table.entries,
      expanded.normalize .outermost entry.definition = (entry.definition, false) := by
    decide +kernel
  have once : ∀ token ∈ tokens, token.stripped.stripped = token.stripped := by decide +kernel
  have first : expanded.normalize .outermost tokens = (normal, true) := by decide +kernel
  refine ⟨settled, once, first, ?_⟩
  have second : expanded.normalize .outermost (expanded.normalized .outermost tokens) =
      (expanded.normalized .outermost tokens, false) :=
    ExpandedTable.normalize_normalized settled once
  rwa [ExpandedTable.normalized, first] at second

end ApiReference
