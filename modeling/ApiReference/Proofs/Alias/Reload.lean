import ApiReference.Alias.Record
import ApiReference.Proofs.Alias.Order
import ApiReference.Proofs.Alias.Passes
import ApiReference.Proofs.Json.ReadBack
import ApiReference.Proofs.Token.JoinedText

/-!
# A stored table is reloaded as it was

The stored form of a table is written as JSON and read back record for record, whatever characters
are in it (`AliasRecords.ofText_render`).  The aliases in it are the aliases of the table again if
every definition is made of well-formed tokens (`AliasRecords.toTable_ofTable`).

Aliases made from complete texts have such definitions, and expansion only moves their tokens about.
Hence an expanded table of such aliases survives being stored and reloaded (`reload_expanded`).
-/

set_option autoImplicit false

namespace ApiReference

/-! ## Records -/

namespace AliasRecord

theorem readsAs_toJson (record : AliasRecord) :
    record.toJson.ReadsAs (readRecord shape) record := by
  refine JsonValue.readsAs_record (.member rfl (by simp) (readsAs_optional ?_ _ _)
    (.member rfl (by simp) (readsAs_mandatory ?_ _ _)
      (.member rfl (by simp) (readsAs_optional ?_ _ _) (.done ?_))))
  · exact JsonValue.readsAs_texts record.scope
  · exact JsonValue.readsAs_text record.name
  · exact JsonValue.readsAs_text record.definition
  · intro field isField _
    simp only [shape, List.mem_cons, List.not_mem_nil, or_false] at isField
    rcases isField with rfl | rfl | rfl <;> decide

/-- An alias is stored without loss if its definition is made of well-formed tokens. -/
theorem toAlias_ofAlias {entry : Alias}
    (wellFormed : ∀ token ∈ entry.definition, token.WellFormed) :
    (ofAlias entry).toAlias = entry := by
  rw [ofAlias, toAlias, Token.tokenize_joinedText wellFormed]

end AliasRecord

namespace AliasRecords

theorem readsAs_toJson (stored : AliasRecords) :
    stored.toJson.ReadsAs (readRecord shape) stored := by
  refine JsonValue.readsAs_record
    (.member rfl (by simp) (readsAs_optional ?_ _ _) (.done ?_))
  · exact JsonValue.readsAs_list fun record _ => record.readsAs_toJson
  · intro field isField _
    simp only [shape, List.mem_cons, List.not_mem_nil, or_false] at isField
    subst isField
    decide

/-- A stored table is read back from its text, record for record. -/
theorem ofText_render (stored : AliasRecords) : ofText stored.render = .ok stored :=
  stored.readsAs_toJson.readWholeText_render

/-- A table of well-formed tokens is stored without loss, and nothing is reported on the way. -/
theorem toTable_ofTable {table : AliasTable}
    (wellFormed : ∀ token, table.HasToken token → token.WellFormed) :
    (ofTable table).toTable = (table, []) := by
  have same : (ofTable table).aliases = table.entries := by
    rw [aliases, ofTable, List.map_map]
    calc table.entries.map (AliasRecord.toAlias ∘ AliasRecord.ofAlias)
        = table.entries.map id := by
          refine List.map_congr_left fun entry member => ?_
          exact AliasRecord.toAlias_ofAlias fun token inDefinition =>
            wellFormed token ⟨entry, member, inDefinition⟩
      _ = table.entries := List.map_id _
  rw [toTable, same, AliasTable.insertAll_entries]

end AliasRecords

/-! ## Aliases made from complete texts -/

namespace Alias

/-- The alias is made from a text that leaves no literal and no block comment open: from a
declaration, or from the text of a definition. -/
inductive OfCompleteText : Alias → Prop where
  | declaration (scope : Scope) (name : String) {declaration : String}
      (ended : ∀ token ∈ tokenize declaration, token.isUnterminated = false) :
      OfCompleteText (ofDeclaration scope name declaration)
  | definition (scope : Scope) (name : String) {content : String}
      (ended : ∀ token ∈ tokenize content, token.isUnterminated = false) :
      OfCompleteText ⟨scope, name, tokenize content⟩

theorem definitionInside_sublist (name : String) (declaration : List Token) :
    (definitionInside name declaration).Sublist declaration := by
  unfold definitionInside
  refine (Token.removeLast_sublist name _).trans ?_
  split
  · exact List.tail_sublist declaration
  · exact List.Sublist.refl declaration

theorem OfCompleteText.assembled {entry : Alias} (complete : entry.OfCompleteText) :
    Token.Assembled entry.definition := by
  cases complete with
  | declaration scope name ended =>
    exact .remove (definitionInside_sublist name _) (.read ended)
  | definition scope name ended => exact .read ended

end Alias

namespace AliasTable

/-- Insertion and expansion of aliases made from complete texts leave well-formed tokens only. -/
theorem wellFormed_of_expand_insertAll {offered : List Alias}
    (complete : ∀ entry ∈ offered, entry.OfCompleteText) {token : Token}
    (has : (empty.insertAll offered).1.expand.1.table.HasToken token) : token.WellFormed := by
  obtain ⟨entry, member, inDefinition⟩ := hasToken_of_expand has
  rcases mem_entries_insertAll member with before | isOffered
  · exact absurd before List.not_mem_nil
  · exact (complete entry isOffered).assembled.wellFormed token inDefinition

/-- The expansion of aliases made from complete texts survives being stored: the text reads back
record for record, and the records make the same table without a finding. -/
theorem reload_expanded (offered : List Alias)
    (complete : ∀ entry ∈ offered, entry.OfCompleteText) :
    let expanded := (empty.insertAll offered).1.expand.1.table
    AliasRecords.ofText (AliasRecords.ofTable expanded).render =
        .ok (AliasRecords.ofTable expanded) ∧
      (AliasRecords.ofTable expanded).toTable = (expanded, []) := by
  intro expanded
  constructor
  · exact AliasRecords.ofText_render _
  · exact AliasRecords.toTable_ofTable fun token has => wellFormed_of_expand_insertAll complete has

/-- An alias inside a scope with a letter beyond ASCII, and one whose name has a quote and a line
break in it and whose definition takes in the first. -/
theorem reload_expanded_unicode :
    let offered : List Alias :=
      [.ofDeclaration ⟨["Zéro"]⟩ "Real" "typedef float /* é */ Real",
        ⟨⟨["Zéro"]⟩, "π \"\n", tokenize "const Real& \"\\\"\""⟩]
    let expanded := (empty.insertAll offered).1.expand.1.table
    (∀ entry ∈ offered, entry.OfCompleteText) ∧
      AliasRecords.ofTable expanded =
        ⟨[⟨["Zéro"], "Real", "float"⟩, ⟨["Zéro"], "π \"\n", "const float & \"\\\"\""⟩]⟩ ∧
      AliasRecords.ofText (AliasRecords.ofTable expanded).render =
        .ok (AliasRecords.ofTable expanded) ∧
      (AliasRecords.ofTable expanded).toTable = (expanded, []) := by
  intro offered expanded
  have complete : ∀ entry ∈ offered, entry.OfCompleteText := by
    intro entry member
    simp only [offered, List.mem_cons, List.not_mem_nil, or_false] at member
    rcases member with rfl | rfl
    · exact .declaration _ _ (by decide +kernel)
    · exact .definition _ _ (by decide +kernel)
  have sorted : (empty.insertAll offered).1.entries.Pairwise fun left right =>
      precedes left right = true := by
    decide +kernel
  refine ⟨complete, ?_, reload_expanded offered complete⟩
  unfold expanded
  rw [expand_of_pairwise sorted]
  decide +kernel

end AliasTable

end ApiReference
