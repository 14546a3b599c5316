import ApiReference.Scope
import ApiReference.Token.Lexer
import ApiReference.Token.Sequence

/-!
# Type aliases

An alias gives a name to a type inside a scope.  Its key, by which it is found, is the name
qualified with the scope.
-/

namespace ApiReference

set_option autoImplicit false

/-- A name for a type. -/
structure Alias where
  scope : Scope
  name : String
  definition : List Token
deriving DecidableEq, Repr, Inhabited

namespace Alias

/-- What an alias is found by. -/
def key (entry : Alias) : String :=
  entry.scope.qualify entry.name

/-- The definition inside the tokens of a declaration: a leading `typedef` and the last token that
spells the name are left out.  A declaration may come without either. -/
def definitionInside (name : String) (declaration : List Token) : List Token :=
  let body :=
    if declaration.head?.any (·.kind = .typedef) then declaration.tail else declaration
  Token.removeLast name body

/-- The alias that a declaration such as `typedef const Real3& Real3Param` makes. -/
def ofDeclaration (scope : Scope) (name declaration : String) : Alias :=
  ⟨scope, name, definitionInside name (tokenize declaration)⟩

/-- The same alias with another definition. -/
def redefine (entry : Alias) (definition : List Token) : Alias :=
  { entry with definition }

@[simp]
theorem key_redefine (entry : Alias) (definition : List Token) :
    (entry.redefine definition).key = entry.key := rfl

end Alias

end ApiReference
