import ApiReference.Alias.Basic
import ApiReference.Proofs.Token.JoinedText

/-!
# What a declaration declares

A declaration is written as the word `typedef`, the definition and the name, with spaces between.
Read as tokens, it loses the first `typedef` and the last token that spells the name, and these are
the two that were written around the definition, even if the definition holds either of them or
nothing at all (`definitionInside_declaration`).

The definition may also be written alone.  It is read as it is exactly if there is nothing in it to
lose: it does not start with `typedef`, and no token of it spells the name
(`definitionInside_eq_self_iff`).
-/

set_option autoImplicit false

namespace ApiReference

namespace Token

variable {text : String} {tokens : List Token}

/-! ## The last token of a text -/

theorem removeLast?_eq_none_iff :
    removeLast? text tokens = none ↔ ∀ token ∈ tokens, token.text ≠ text := by
  induction tokens with
  | nil => simp [removeLast?]
  | cons token later ih =>
    rw [removeLast?, List.forall_mem_cons, ← ih]
    cases removeLast? text later with
    | none => simp
    | some shorter => simp

theorem length_of_removeLast? {shorter : List Token}
    (removed : removeLast? text tokens = some shorter) : shorter.length + 1 = tokens.length := by
  induction tokens generalizing shorter with
  | nil => cases removed
  | cons token later ih =>
    rw [removeLast?] at removed
    split at removed
    · rename_i rest removedLater
      obtain rfl := Option.some.inj removed
      rw [List.length_cons, List.length_cons, ih removedLater]
    · split at removed
      · obtain rfl := Option.some.inj removed
        rfl
      · cases removed

/-- Nothing is removed exactly where no token has the text. -/
theorem removeLast_eq_self_iff :
    removeLast text tokens = tokens ↔ ∀ token ∈ tokens, token.text ≠ text := by
  rw [removeLast, ← removeLast?_eq_none_iff]
  cases removed : removeLast? text tokens with
  | none => simp
  | some shorter =>
    have fewer := length_of_removeLast? removed
    rw [Option.getD_some, iff_false_right (Option.some_ne_none shorter)]
    rintro rfl
    omega

theorem removeLast?_concat (tokens : List Token) (token : Token) :
    removeLast? token.text (tokens ++ [token]) = some tokens := by
  induction tokens with
  | nil => simp [removeLast?]
  | cons first later ih => rw [List.cons_append, removeLast?, ih]

/-- A token at the end is the last one of its text, whatever stands in front of it. -/
theorem removeLast_concat (tokens : List Token) (token : Token) :
    removeLast token.text (tokens ++ [token]) = tokens := by
  rw [removeLast, removeLast?_concat, Option.getD_some]

/-! ## The word that opens a declaration -/

/-- The word that opens a declaration. -/
def typedefWord : Token :=
  ofWord "typedef"

theorem mem_reservedWords_of_kind_ofWord {word : String} {kind : Kind}
    (isKind : (ofWord word).kind = kind) (noIdentifier : kind ≠ .identifier) :
    (word, kind) ∈ Kind.reservedWords := by
  unfold ofWord Kind.reserved? at isKind
  cases known : Kind.reservedWords.lookup word with
  | none =>
    rw [known] at isKind
    exact absurd isKind.symm noIdentifier
  | some reserved =>
    obtain ⟨before, after, spelled, -⟩ := List.lookup_eq_some_iff.mp known
    obtain rfl : reserved = kind := by simpa [known] using isKind
    rw [spelled]
    exact List.mem_append_right before List.mem_cons_self

/-- Of the tokens that are read from texts, the word `typedef` alone has its kind. -/
theorem WellFormed.kind_eq_typedef_iff {token : Token} (wellFormed : token.WellFormed) :
    token.kind = .typedef ↔ token = typedefWord := by
  constructor
  · intro isTypedef
    cases wellFormed with
    | @word first following =>
      have reserved := mem_reservedWords_of_kind_ofWord isTypedef (by decide)
      have spelled : String.ofList (first :: following) = "typedef" := by
        simpa [Kind.reservedWords] using reserved
      rw [spelled, typedefWord]
    | number => cases isTypedef
    | literal => cases isTypedef
    | scope => cases isTypedef
    | mark => exact absurd isTypedef (kindOfMark_ne (by decide) _)
  · rintro rfl
    decide

end Token

/-! ## Declarations -/

theorem IsWord.wellFormed {name : String} (word : IsWord name) :
    (Token.ofWord name).WellFormed := by
  obtain ⟨start, parts⟩ := word
  obtain ⟨first, following, spelled⟩ : ∃ first following, name.toList = first :: following :=
    List.exists_cons_of_ne_nil fun nothing => by simp [nothing] at start
  rw [spelled] at start parts
  rw [← String.ofList_toList (s := name), spelled]
  exact .word start (List.forall_mem_cons.mp (List.all_eq_true.mp parts)).2

namespace Alias

variable {name : String} {definition : List Token}

/-- The written form of a declaration. -/
def declarationText (name : String) (definition : List Token) : String :=
  " ".intercalate [Token.typedefWord.text, Token.joinedText definition, name]

/-- A declaration is read as the tokens it was written from. -/
theorem tokenize_declarationText (word : IsWord name)
    (wellFormed : ∀ token ∈ definition, token.WellFormed) :
    tokenize (declarationText name definition) =
      Token.typedefWord :: (definition ++ [Token.ofWord name]) := by
  have opening : Token.typedefWord.WellFormed := IsWord.wellFormed (by decide)
  have spelled : (declarationText name definition).toList = Token.typedefWord.text.toList ++
      ' ' :: ([' '].intercalate (definition.map fun token => token.text.toList) ++
        ' ' :: (Token.ofWord name).text.toList) := by
    rw [declarationText, String.toList_intercalate, ← Token.toList_joinedText, List.map_cons,
      List.map_cons, List.map_singleton, List.intercalate_cons_cons, List.intercalate_cons_cons,
      List.intercalate_singleton, List.append_assoc, List.append_assoc]
    rfl
  have closing : tokenizeChars (Token.ofWord name).text.toList = [Token.ofWord name] :=
    word.wellFormed.tokenize_text
  rw [tokenize, spelled, opening.tokenizeChars_append (detached_space _),
    tokenizeChars_blank (by decide),
    Token.tokenizeChars_intercalate_append wellFormed (detached_space _),
    tokenizeChars_blank (by decide), closing]

/-- The tokens around a definition are those that are left out, whatever the definition is. -/
theorem definitionInside_declaration (name : String) (definition : List Token) :
    definitionInside name (Token.typedefWord :: (definition ++ [Token.ofWord name])) =
      definition := by
  rw [definitionInside, List.head?_cons, Option.any_some,
    if_pos (by decide : decide (Token.typedefWord.kind = .typedef) = true), List.tail_cons]
  exact Token.removeLast_concat definition (Token.ofWord name)

/-- A definition that is written alone is read as it is exactly if it does not start with `typedef`
and does not hold the name. -/
theorem definitionInside_eq_self_iff (wellFormed : ∀ token ∈ definition, token.WellFormed) :
    definitionInside name definition = definition ↔
      definition.head? ≠ some Token.typedefWord ∧ ∀ token ∈ definition, token.text ≠ name := by
  unfold definitionInside
  cases definition with
  | nil => simp [Token.removeLast, Token.removeLast?]
  | cons first later =>
    have isTypedef := (wellFormed first List.mem_cons_self).kind_eq_typedef_iff
    rw [List.head?_cons, Option.any_some, Ne, Option.some_inj, ← isTypedef, List.tail_cons]
    by_cases opens : first.kind = .typedef
    · rw [if_pos (decide_eq_true opens), iff_false_right fun both => both.1 opens]
      intro unchanged
      -- what is left of the tokens behind `typedef` is shorter than all of them
      have fewer := (Token.removeLast_sublist name later).length_le
      rw [unchanged, List.length_cons] at fewer
      omega
    · rw [if_neg (by simpa using opens), Token.removeLast_eq_self_iff, and_iff_right opens]

/-- A declaration yields exactly its definition.  Written behind `typedef` and before the name, any
list of tokens that are read from complete texts is the definition of the alias, whatever is in it.
Written alone, it is so exactly if it does not start with `typedef` and does not hold the name.  The
key is that of the name in the scope of the declaration. -/
theorem ofDeclaration_written (scope : Scope) (word : IsWord name)
    (read : ∀ token ∈ definition,
      (∃ text, token ∈ tokenize text) ∧ token.isUnterminated = false) :
    ofDeclaration scope name (declarationText name definition) = ⟨scope, name, definition⟩ ∧
      (ofDeclaration scope name (Token.joinedText definition) = ⟨scope, name, definition⟩ ↔
        definition.head? ≠ some Token.typedefWord ∧ ∀ token ∈ definition, token.text ≠ name) ∧
      ∀ declaration, (ofDeclaration scope name declaration).key = scope.qualify name := by
  have wellFormed : ∀ token ∈ definition, token.WellFormed := by
    intro token member
    obtain ⟨⟨text, isRead⟩, ended⟩ := read token member
    exact wellFormed_of_mem_tokenizeChars isRead ended
  refine ⟨?_, ?_, fun declaration => rfl⟩
  · rw [ofDeclaration, tokenize_declarationText word wellFormed, definitionInside_declaration]
  · rw [ofDeclaration, Token.tokenize_joinedText wellFormed,
      ← definitionInside_eq_self_iff wellFormed, Alias.mk.injEq, and_iff_right rfl, and_iff_right rfl]

/-- The definition starts with `typedef` itself, and holds the name behind a `::` and in a literal
that spells a declaration. -/
theorem ofDeclaration_written_selfNamed :
    let definition := tokenize "typedef Math::Handle \"typedef Handle\" // as before"
    IsWord "Handle" ∧
      (∀ token ∈ definition,
        (∃ text, token ∈ tokenize text) ∧ token.isUnterminated = false) ∧
      ofDeclaration ⟨["Zero"]⟩ "Handle" (declarationText "Handle" definition) =
        ⟨⟨["Zero"]⟩, "Handle", definition⟩ ∧
      ofDeclaration ⟨["Zero"]⟩ "Handle" (Token.joinedText definition) ≠
        ⟨⟨["Zero"]⟩, "Handle", definition⟩ := by
  intro definition
  have word : IsWord "Handle" := by decide
  have ended : ∀ token ∈ definition, token.isUnterminated = false := by decide +kernel
  have read : ∀ token ∈ definition,
      (∃ text, token ∈ tokenize text) ∧ token.isUnterminated = false :=
    fun token member => ⟨⟨_, member⟩, ended token member⟩
  obtain ⟨declared, bare, -⟩ := ofDeclaration_written ⟨["Zero"]⟩ word read
  have opens : definition.head? = some Token.typedefWord := by decide +kernel
  exact ⟨word, read, declared, fun alone => (bare.mp alone).1 opens⟩

end Alias

end ApiReference
