import ApiReference.Display.Chain
import ApiReference.Token.Lexer

/-!
# Display text

The text shown for a type.  Tokens are first grouped into pieces: a scope chain is one piece and
every other token is a piece of its own.  The pieces are then written one behind the other without
spaces, except that a qualifier word is followed by a space and that two words never touch.  So the
text reads back to the tokens it shows, and `Real3 const &` does not become one word.
-/

namespace ApiReference

set_option autoImplicit false

/-- What is written in one go: a text, and whether a space follows it. -/
structure DisplayPiece where
  text : String
  spaceAfter : Bool
deriving DecidableEq, Repr

namespace DisplayPiece

/-- Group tokens into pieces. -/
def ofTokens : List Token → List DisplayPiece
  | [] => []
  | token :: following =>
    if _opens : Token.opensChain token following = true then
      ⟨(Token.readChain token following).1.displayText, false⟩ ::
        ofTokens (Token.readChain token following).2
    else ⟨token.text, token.kind.isQualifier⟩ :: ofTokens following
termination_by tokens => tokens.length
decreasing_by
  · exact Nat.lt_succ_of_le (Token.readChain_rest_length ‹_›)
  · exact Nat.lt_succ_self _

/-- A text that ends and a text that starts in a letter, a digit or an underscore would run
together. -/
def wouldTouch (written next : List Char) : Bool :=
  written.getLast?.any isWordPart && next.head?.any isWordPart

/-- Write a piece behind what is written already. -/
def writeAfter (written : List Char) (piece : DisplayPiece) : List Char :=
  written ++ (if wouldTouch written piece.text.toList then [' '] else []) ++ piece.text.toList ++
    (if piece.spaceAfter then [' '] else [])

/-- Write pieces one behind the other. -/
def writeAll (pieces : List DisplayPiece) : List Char :=
  pieces.foldl writeAfter []

end DisplayPiece

/-- The text shown for a list of tokens. -/
def displayText (tokens : List Token) : String :=
  String.ofList (trimEnd isSpace (DisplayPiece.writeAll (DisplayPiece.ofTokens tokens)))

/-- The text shown for a name that may be qualified with `::`. -/
def displayName (name : String) : String :=
  displayText (tokenize name)

end ApiReference
