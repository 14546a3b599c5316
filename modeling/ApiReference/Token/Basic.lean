import ApiReference.Text.CharClass
import ApiReference.Token.Kind

/-!
# Tokens

A token is its text together with its kind.  A type, a declaration or a source line is a list of
tokens; two lists are equal when texts and kinds agree, while signatures compare texts alone.

`Token.ofWord` gives a word its kind, and `Token.ofText` gives a kind to a text of any sort by its
first character, as reading that text on its own would.
-/

namespace ApiReference

set_option autoImplicit false

/-- A piece of text with its kind. -/
structure Token where
  text : String
  kind : Kind
deriving DecidableEq, Repr, Inhabited

namespace Token

/-- The type that stands for any type. -/
def wildcard : String := "any"

/-- The token of a word: a reserved word has its own kind, every other is an identifier. -/
def ofWord (word : String) : Token :=
  ⟨word, (Kind.reserved? word).getD .identifier⟩

/-- The token `::`. -/
def scope : Token :=
  ⟨"::", .scopeResolution⟩

/-- A token with this text stands for any type. -/
def isWildcard (token : Token) : Bool :=
  token.text = wildcard

/-- The kind of a mark that is always a token of its own; every other mark is a symbol. -/
def kindOfMark : Char → Kind
  | '(' => .openParen
  | ')' => .closeParen
  | ',' => .comma
  | ';' => .semicolon
  | '#' => .pound
  | _ => .symbol

/-- The token of a text that was split off beforehand. -/
def ofText (text : String) : Token :=
  match text.toList with
  | [] => ⟨text, .symbol⟩
  | [':', ':'] => scope
  | first :: following =>
    if isQuote first then ⟨text, .stringLiteral⟩
    else if first.isDigit then ⟨text, .number⟩
    else if isWordStart first then ofWord text
    else if following.isEmpty then ⟨text, kindOfMark first⟩
    else ⟨text, .symbol⟩

@[simp]
theorem text_ofWord (word : String) : (ofWord word).text = word := rfl

@[simp]
theorem text_ofText (text : String) : (ofText text).text = text := by
  unfold ofText
  split
  · rfl
  · rename_i colons
    rw [← String.ofList_toList (s := text), colons]
    rfl
  · simp only [apply_ite Token.text, text_ofWord, ite_self]

end Token

end ApiReference
