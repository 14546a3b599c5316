/-!
# Classes of characters

Two notions of white space are in use, and they differ on purpose.  Between tokens only the five
blanks of program text are skipped (`isBlank`), so that any other space character is a token of its
own.  The edge of a text, on the other hand, is trimmed of everything the Unicode standard gives the
property White_Space (`isSpace`); the list below is that property in full.

Words and numbers are ASCII by definition: a letter outside ASCII never joins a word.
-/

namespace ApiReference

set_option autoImplicit false

/-- The blanks of program text: space, tab, line feed, carriage return and form feed. -/
def isBlank (character : Char) : Bool :=
  character = ' ' || character = '\t' || character = '\n' || character = '\r' ||
    character = '\x0c'

/-- The Unicode property White_Space. -/
def isSpace (character : Char) : Bool :=
  let point := character.toNat
  (9 ≤ point && point ≤ 13) || point = 0x20 || point = 0x85 || point = 0xA0 || point = 0x1680 ||
    (0x2000 ≤ point && point ≤ 0x200A) || point = 0x2028 || point = 0x2029 || point = 0x202F ||
    point = 0x205F || point = 0x3000

/-- The ASCII letters and the underscore, which may open a word. -/
def isWordStart (character : Char) : Bool :=
  character.isAlpha || character = '_'

/-- The ASCII letters, digits and the underscore, which may continue a word. -/
def isWordPart (character : Char) : Bool :=
  character.isAlphanum || character = '_'

/-- What may continue a number: the parts of a word and the point. -/
def isNumberPart (character : Char) : Bool :=
  isWordPart character || character = '.'

/-- The two quotes that open and close a literal. -/
def isQuote (character : Char) : Bool :=
  character = '"' || character = '\''

/-- The text without the characters of a class at its end. -/
def trimEnd (inClass : Char → Bool) (text : List Char) : List Char :=
  (text.reverse.dropWhile inClass).reverse

/-- The text without the characters of a class at either end. -/
def trimBoth (inClass : Char → Bool) (text : List Char) : List Char :=
  trimEnd inClass (text.dropWhile inClass)

theorem isWordPart_of_isWordStart {character : Char} (start : isWordStart character = true) :
    isWordPart character = true := by
  simp only [isWordStart, Bool.or_eq_true] at start
  simp only [isWordPart, Char.isAlphanum, Bool.or_eq_true]
  rcases start with letter | underscore
  · exact Or.inl (Or.inl letter)
  · exact Or.inr underscore

theorem isSpace_of_isBlank {character : Char} (blank : isBlank character = true) :
    isSpace character = true := by
  simp only [isBlank, Bool.or_eq_true, decide_eq_true_eq] at blank
  rcases blank with (((rfl | rfl) | rfl) | rfl) | rfl <;> decide

end ApiReference
