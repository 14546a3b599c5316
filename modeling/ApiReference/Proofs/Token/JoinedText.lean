import ApiReference.Proofs.Token.WellFormed
import ApiReference.Token.Sequence

/-!
# Joined text reads back

Written with single spaces between them, well-formed tokens are read as they were: a space detaches
each token from the next, so that none is merged with another, split or lost
(`tokenize_joinedText`), and splitting the text beforehand gives them the same kinds
(`listOfTexts_map_text`).  The lists of tokens that reading, concatenating, splicing, cutting and
removing make from complete texts hold well-formed tokens only (`Assembled.wellFormed`).

`joinedText_readsBack` puts this together for split words, for the tokens of a text and for the
lists assembled from them.
-/

set_option autoImplicit false

namespace ApiReference

namespace Token

/-! ## Well-formed tokens -/

/-- Reading goes through the texts of well-formed tokens with spaces between, one by one, and goes on
behind them. -/
theorem tokenizeChars_intercalate_append {tokens : List Token}
    (wellFormed : ∀ token ∈ tokens, token.WellFormed) {rest : List Char} (detached : Detached rest) :
    tokenizeChars ([' '].intercalate (tokens.map fun token => token.text.toList) ++ rest) =
      tokens ++ tokenizeChars rest := by
  induction tokens with
  | nil => rfl
  | cons token later ih =>
    have here := wellFormed token List.mem_cons_self
    have readLater := ih fun other member => wellFormed other (List.mem_cons_of_mem _ member)
    cases later with
    | nil =>
      rw [List.map_cons, List.map_nil, List.intercalate_singleton]
      exact here.tokenizeChars_append detached
    | cons next more =>
      rw [List.map_cons] at readLater
      rw [List.map_cons, List.map_cons, List.intercalate_cons_cons, List.append_assoc,
        List.append_assoc, List.singleton_append, here.tokenizeChars_append (detached_space _),
        tokenizeChars_blank (by decide), readLater]
      rfl

/-- Reading the texts of well-formed tokens with spaces between gives these tokens. -/
theorem tokenizeChars_intercalate {tokens : List Token}
    (wellFormed : ∀ token ∈ tokens, token.WellFormed) :
    tokenizeChars ([' '].intercalate (tokens.map fun token => token.text.toList)) = tokens := by
  have read := tokenizeChars_intercalate_append wellFormed detached_nil
  rwa [List.append_nil, tokenizeChars, List.append_nil] at read

theorem toList_joinedText (tokens : List Token) :
    (joinedText tokens).toList =
      [' '].intercalate (tokens.map fun token => token.text.toList) := by
  rw [joinedText, String.toList_intercalate, List.map_map]
  rfl

/-- Joined text is read as the tokens it was made of. -/
theorem tokenize_joinedText {tokens : List Token}
    (wellFormed : ∀ token ∈ tokens, token.WellFormed) :
    tokenize (joinedText tokens) = tokens := by
  rw [tokenize, toList_joinedText, tokenizeChars_intercalate wellFormed]

/-- Splitting a text beforehand classifies its tokens as reading it does. -/
theorem listOfTexts_map_text {tokens : List Token}
    (wellFormed : ∀ token ∈ tokens, token.WellFormed) :
    listOfTexts (tokens.map text) = tokens := by
  rw [listOfTexts, List.map_map]
  calc tokens.map (ofText ∘ text) = tokens.map id :=
        List.map_congr_left fun token member => (wellFormed token member).ofText_text
    _ = tokens := List.map_id tokens

/-! ## Split words -/

/-- Read on its own, the word is one token with this text, and that token is not left open. -/
def StandsAlone (word : String) : Prop :=
  ∃ token, tokenize word = [token] ∧ token.text = word ∧ token.isUnterminated = false

/-- A word that stands alone is read as the token its text is classified as. -/
theorem StandsAlone.tokenize_eq {word : String} (alone : StandsAlone word) :
    tokenize word = [ofText word] ∧ (ofText word).WellFormed := by
  obtain ⟨token, read, rfl, ended⟩ := alone
  have wellFormed : token.WellFormed :=
    wellFormed_of_mem_tokenizeChars (read ▸ List.mem_singleton_self token) ended
  rw [wellFormed.ofText_text]
  exact ⟨read, wellFormed⟩

theorem wellFormed_listOfTexts {words : List String} (alone : ∀ word ∈ words, StandsAlone word) :
    ∀ token ∈ listOfTexts words, token.WellFormed := by
  intro token member
  obtain ⟨word, isWord, rfl⟩ := List.mem_map.mp member
  exact (alone word isWord).tokenize_eq.2

theorem map_text_listOfTexts (words : List String) : (listOfTexts words).map text = words := by
  rw [listOfTexts, List.map_map]
  exact List.map_id'' text_ofText words

/-- Words that stand alone are classified one by one as they are read one by one. -/
theorem flatMap_tokenize_eq {words : List String} (alone : ∀ word ∈ words, StandsAlone word) :
    words.flatMap tokenize = listOfTexts words := by
  induction words with
  | nil => rfl
  | cons word later ih =>
    rw [List.flatMap_cons, (alone word List.mem_cons_self).tokenize_eq.1,
      ih fun other member => alone other (List.mem_cons_of_mem _ member)]
    rfl

/-! ## Lists assembled from texts -/

/-- The lists that come from complete texts by putting together and taking apart. -/
inductive Assembled : List Token → Prop where
  | read {text : String} (ended : ∀ token ∈ tokenize text, token.isUnterminated = false) :
      Assembled (tokenize text)
  | append {left right : List Token} : Assembled left → Assembled right → Assembled (left ++ right)
  | splice (position : Nat) {replacement tokens : List Token} :
      Assembled replacement → Assembled tokens → Assembled (splice position replacement tokens)
  | range (start stop : Nat) {tokens : List Token} :
      Assembled tokens → Assembled (range start stop tokens)
  | remove {kept tokens : List Token} (fewer : kept.Sublist tokens) :
      Assembled tokens → Assembled kept

theorem range_sublist (start stop : Nat) (tokens : List Token) :
    (range start stop tokens).Sublist tokens :=
  (List.drop_sublist start _).trans (List.take_sublist stop tokens)

theorem removeLast?_sublist {text : String} {tokens shorter : List Token}
    (removed : removeLast? text tokens = some shorter) : shorter.Sublist tokens := by
  induction tokens generalizing shorter with
  | nil => contradiction
  | cons token later ih =>
    rw [removeLast?] at removed
    split at removed
    · rename_i rest removedLater
      obtain rfl := Option.some.inj removed
      exact (ih removedLater).cons_cons token
    · split at removed
      · obtain rfl := Option.some.inj removed
        exact List.sublist_cons_self token later
      · contradiction

theorem removeLast_sublist (text : String) (tokens : List Token) :
    (removeLast text tokens).Sublist tokens := by
  unfold removeLast
  cases removed : removeLast? text tokens with
  | none => exact List.Sublist.refl tokens
  | some shorter => exact removeLast?_sublist removed

/-- An assembled list holds well-formed tokens only. -/
theorem Assembled.wellFormed {tokens : List Token} (assembled : Assembled tokens) :
    ∀ token ∈ tokens, token.WellFormed := by
  induction assembled with
  | read ended =>
    intro token member
    exact wellFormed_of_mem_tokenizeChars member (ended token member)
  | append _ _ left right =>
    intro token member
    rcases List.mem_append.mp member with inLeft | inRight
    · exact left token inLeft
    · exact right token inRight
  | splice position _ _ inReplacement inTokens =>
    intro token member
    rcases mem_of_mem_splice member with inside | around
    · exact inReplacement token inside
    · exact inTokens token around
  | range start stop _ ih =>
    intro token member
    exact ih token ((range_sublist start stop _).subset member)
  | remove fewer _ ih =>
    intro token member
    exact ih token (fewer.subset member)

/-! ## Reading back -/

/-- Joined text reads back.  Words that stand alone are read as one token each, with the kind they
have alone; and so are the tokens of a complete text and of a list assembled from such texts. -/
theorem joinedText_readsBack :
    (∀ words : List String, (∀ word ∈ words, StandsAlone word) →
      tokenize (" ".intercalate words) = listOfTexts words ∧
        listOfTexts words = words.flatMap tokenize ∧ (listOfTexts words).map text = words) ∧
    (∀ content : String, (∀ token ∈ tokenize content, token.isUnterminated = false) →
      tokenize (joinedText (tokenize content)) = tokenize content) ∧
    ∀ tokens : List Token, Assembled tokens → tokenize (joinedText tokens) = tokens := by
  refine ⟨fun words alone => ⟨?_, ?_, ?_⟩, fun content ended => ?_, fun tokens assembled => ?_⟩
  · have joined := tokenize_joinedText (wellFormed_listOfTexts alone)
    rwa [joinedText, map_text_listOfTexts] at joined
  · exact (flatMap_tokenize_eq alone).symm
  · exact map_text_listOfTexts words
  · exact tokenize_joinedText (Assembled.read ended).wellFormed
  · exact tokenize_joinedText assembled.wellFormed

/-- Marks that could open a comment or a `::`, a literal with an escaped quote and the start of a
comment inside, and a list with a definition spliced in. -/
theorem joinedText_readsBack_mixed :
    (∀ word ∈ ["/", "/", ":", "::", "\"a \\\" /*\"", "5.x", "é"], StandsAlone word) ∧
      tokenize "/ / : :: \"a \\\" /*\" 5.x é" =
        listOfTexts ["/", "/", ":", "::", "\"a \\\" /*\"", "5.x", "é"] ∧
      Assembled (splice 1 (tokenize "const /* c */ T&") (tokenize "f(T)")) ∧
      tokenize (joinedText (splice 1 (tokenize "const /* c */ T&") (tokenize "f(T)"))) =
        splice 1 (tokenize "const /* c */ T&") (tokenize "f(T)") := by
  have alone : ∀ word ∈ ["/", "/", ":", "::", "\"a \\\" /*\"", "5.x", "é"], StandsAlone word := by
    intro word member
    simp only [List.mem_cons, List.not_mem_nil, or_false] at member
    rcases member with rfl | rfl | rfl | rfl | rfl | rfl | rfl <;>
      exact ⟨ofText _, by decide +kernel, text_ofText _, by decide +kernel⟩
  have assembled : Assembled (splice 1 (tokenize "const /* c */ T&") (tokenize "f(T)")) :=
    .splice 1 (.read (by decide +kernel)) (.read (by decide +kernel))
  exact ⟨alone, (joinedText_readsBack.1 _ alone).1, assembled,
    joinedText_readsBack.2.2 _ assembled⟩

end Token

end ApiReference
