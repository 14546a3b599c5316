/-!
# Kinds of tokens

The kinds form a total order, which is the order of their declaration.  Everything structural comes
before `qualifiersBoundary`, the qualifier words come after it; the boundary itself is the kind of
no token that is read from text.  `Kind.isQualifier` is the test against the boundary.

Reserved words are the words whose kind is not `identifier`; `reservedWords` lists them all.
-/

namespace ApiReference

set_option autoImplicit false

/-- What a token is, apart from its text. -/
inductive Kind where
  | identifier
  /-- The word `Enum`, which marks an enumeration that is named by its scope. -/
  | enumMarker
  | void
  | number
  | scopeResolution
  | openParen
  | closeParen
  | comma
  | semicolon
  | pound
  /-- A quoted literal; its text includes the quotes. -/
  | stringLiteral
  /-- Any other mark, and text that no rule accepts. -/
  | symbol
  /-- Stands between the structural kinds and the qualifiers. -/
  | qualifiersBoundary
  | const
  | static
  | volatile
  | mutableWord
  | unsigned
  | signed
  | long
  | short
  | inlineWord
  | virtual
  | explicit
  | externWord
  | friend
  | typename
  | typedef
  | structWord
  | classWord
  | enum
deriving DecidableEq, Repr, Inhabited

namespace Kind

/-- All kinds, in their order. -/
def all : List Kind :=
  [identifier, enumMarker, void, number, scopeResolution, openParen, closeParen, comma, semicolon,
    pound, stringLiteral, symbol, qualifiersBoundary, const, static, volatile, mutableWord, unsigned,
    signed, long, short, inlineWord, virtual, explicit, externWord, friend, typename, typedef,
    structWord, classWord, enum]

/-- The place of a kind in the order. -/
def rank (kind : Kind) : Nat :=
  all.idxOf kind

/-- The qualifier words stand beyond the boundary. -/
def isQualifier (kind : Kind) : Bool :=
  qualifiersBoundary.rank < kind.rank

/-- The words with a kind of their own. -/
def reservedWords : List (String × Kind) :=
  [("void", void), ("Enum", enumMarker), ("const", const), ("static", static),
    ("volatile", volatile), ("mutable", mutableWord), ("unsigned", unsigned), ("signed", signed),
    ("long", long), ("short", short), ("inline", inlineWord), ("virtual", virtual),
    ("explicit", explicit), ("extern", externWord), ("friend", friend), ("typename", typename),
    ("typedef", typedef), ("struct", structWord), ("class", classWord), ("enum", enum)]

/-- The kind of a reserved word. -/
def reserved? (word : String) : Option Kind :=
  reservedWords.lookup word

end Kind

end ApiReference
