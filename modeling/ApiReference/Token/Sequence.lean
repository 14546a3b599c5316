import ApiReference.Token.Basic

/-!
# Lists of tokens

The operations on lists of tokens that core does not have: taking a clamped range, putting a list in
the place of one token, removing the last token of a given text, and the comparisons the rest of the
library is built on.  `joinedText` is the written form of a list, its texts with single spaces
between.
-/

namespace ApiReference

set_option autoImplicit false

namespace Token

/-- The tokens of texts that were split beforehand. -/
def listOfTexts (texts : List String) : List Token :=
  texts.map ofText

/-- The texts of the tokens with single spaces between. -/
def joinedText (tokens : List Token) : String :=
  " ".intercalate (tokens.map Token.text)

/-- The tokens from one position up to another, as far as there are any. -/
def range (start stop : Nat) (tokens : List Token) : List Token :=
  (tokens.take stop).drop start

/-- Put a list in the place of the token at a position. -/
def splice (position : Nat) (replacement tokens : List Token) : List Token :=
  if position < tokens.length then
    tokens.take position ++ replacement ++ tokens.drop (position + 1)
  else tokens

/-- Where a scan goes on after a splice: behind what was put in. -/
def resumeAfterSplice (position : Nat) (replacement tokens : List Token) : Nat :=
  if position < tokens.length then position + replacement.length else position

/-- Remove the last token with a text; none if there is no such token. -/
def removeLast? (text : String) : List Token → Option (List Token)
  | [] => none
  | token :: rest =>
    match removeLast? text rest with
    | some shorter => some (token :: shorter)
    | none => if token.text = text then some rest else none

/-- Remove the last token with a text, if there is one. -/
def removeLast (text : String) (tokens : List Token) : List Token :=
  (removeLast? text tokens).getD tokens

/-- Give the token at a position another text and leave its kind. -/
def setText (position : Nat) (text : String) (tokens : List Token) : List Token :=
  tokens.modify position fun token => { token with text }

/-- Some token has the kind. -/
def hasKind (kind : Kind) (tokens : List Token) : Bool :=
  tokens.any (·.kind = kind)

/-- Some token has the text. -/
def hasText (text : String) (tokens : List Token) : Bool :=
  tokens.any (·.text = text)

/-- The position of the first token of a kind. -/
def positionOf? (kind : Kind) (tokens : List Token) : Option Nat :=
  tokens.findIdx? (·.kind = kind)

/-- The first list stands in the second without a gap; the empty list stands nowhere. -/
def occursIn (part : List Token) : List Token → Bool
  | [] => false
  | token :: rest =>
    (!part.isEmpty && part.isPrefixOf (token :: rest)) || occursIn part rest

/-- The texts agree one by one, whatever the kinds. -/
def sameTexts (left right : List Token) : Bool :=
  left.map Token.text = right.map Token.text

/-- The first token stands for any type. -/
def startsWithWildcard (tokens : List Token) : Bool :=
  tokens.head?.any isWildcard

/-- A splice inside the list changes the length by that of the replacement less one. -/
theorem length_splice {position : Nat} {replacement tokens : List Token}
    (inside : position < tokens.length) :
    (splice position replacement tokens).length + 1 = tokens.length + replacement.length := by
  simp only [splice, if_pos inside, List.length_append, List.length_take, List.length_drop]
  omega

theorem mem_of_mem_splice {position : Nat} {replacement tokens : List Token} {token : Token}
    (member : token ∈ splice position replacement tokens) :
    token ∈ replacement ∨ token ∈ tokens := by
  unfold splice at member
  split at member
  · rcases List.mem_append.mp member with front | behind
    · rcases List.mem_append.mp front with before | inside
      · exact Or.inr (List.mem_of_mem_take before)
      · exact Or.inl inside
    · exact Or.inr (List.mem_of_mem_drop behind)
  · exact Or.inr member

/-- Occurring without a gap is being a non-empty infix. -/
theorem occursIn_iff {part tokens : List Token} :
    occursIn part tokens = true ↔
      part ≠ [] ∧ ∃ before after, tokens = before ++ part ++ after := by
  induction tokens with
  | nil =>
    simp only [occursIn, Bool.false_eq_true, false_iff, not_and]
    rintro nonempty ⟨before, after, equal⟩
    simp at equal
    exact nonempty equal.2.1
  | cons token rest ih =>
    simp only [occursIn, Bool.or_eq_true, Bool.and_eq_true, Bool.not_eq_true',
      List.isEmpty_eq_false_iff, List.isPrefixOf_iff_prefix, ih]
    constructor
    · rintro (⟨nonempty, after, equal⟩ | ⟨nonempty, before, after, equal⟩)
      · exact ⟨nonempty, [], after, by simpa using equal.symm⟩
      · exact ⟨nonempty, token :: before, after, by simp [equal]⟩
    · rintro ⟨nonempty, before, after, equal⟩
      cases before with
      | nil => exact Or.inl ⟨nonempty, after, by simpa using equal.symm⟩
      | cons first before =>
        simp only [List.cons_append, List.cons.injEq] at equal
        exact Or.inr ⟨nonempty, before, after, equal.2⟩

theorem sameTexts_comm (left right : List Token) : sameTexts left right = sameTexts right left := by
  simp only [sameTexts, decide_eq_decide]
  exact eq_comm

end Token

end ApiReference
