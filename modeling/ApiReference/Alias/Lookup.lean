import ApiReference.Alias.Table

/-!
# Looking up one token

A token of a type is looked up in the window it stands in, which is the whole list of tokens as far
as it is rewritten.  It misses if its text resolves to no alias.  If it resolves, three guards may
hold the alias back: it is the very alias whose definition is being expanded, its definition already
stands in the window, or the token ends a qualified spelling `Scope :: Name` that the definition
itself opens with.  Only when no guard holds is the lookup a hit.
-/

namespace ApiReference

set_option autoImplicit false

/-- Why an alias that a token resolves to is not put in its place. -/
inductive Guard where
  /-- It is the alias whose definition is being expanded. -/
  | ownKey
  /-- Its definition already stands in the window. -/
  | alreadyExpanded
  /-- The window ends in a spelling that the definition opens with. -/
  | aliasPattern
deriving DecidableEq, Repr

/-- What becomes of one token. -/
inductive Lookup where
  | miss
  | guarded (entry : Alias) (guard : Guard)
  | hit (entry : Alias)
deriving DecidableEq, Repr

/-- The token is to be replaced. -/
def Lookup.isHit : Lookup → Bool
  | hit _ => true
  | _ => false

/-- The token at a position and the two before it spell the first three tokens of a definition. -/
def spellsOpening (window : List Token) (position : Nat) (definition : List Token) : Bool :=
  3 ≤ definition.length && 2 ≤ position &&
    Token.sameTexts (Token.range (position - 2) (position + 1) window) (definition.take 3)

namespace AliasTable

/-- The guard that holds an alias back, if any; the first in the order of their declaration. -/
def guard? (window : List Token) (position : Nat) (ownKey? : Option String) (entry : Alias) :
    Option Guard :=
  if ownKey? = some entry.key then some .ownKey
  else if Token.occursIn entry.definition window then some .alreadyExpanded
  else if spellsOpening window position entry.definition then some .aliasPattern
  else none

/-- Look up the token at a position of a window, as seen from a scope.  While the definition of an
alias is expanded, `ownKey?` is the key of that alias. -/
def lookup (table : AliasTable) (window : List Token) (position : Nat) (scope : Scope)
    (ownKey? : Option String) : Lookup :=
  match window[position]? with
  | none => .miss
  | some token =>
    match table.resolve? token.text scope with
    | none => .miss
    | some entry =>
      match guard? window position ownKey? entry with
      | some guard => .guarded entry guard
      | none => .hit entry

end AliasTable

end ApiReference
