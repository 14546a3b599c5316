import ApiReference.Alias.Lookup

/-!
# Substituting aliases

`scanFrom` walks over a list of tokens in place, from left to right.  A hit puts the definition of
the alias in the place of the token, and the walk goes on behind it, so that a definition is never
looked at again in the same walk.  The part of the list that is still to be walked over gets shorter
at every step, whatever is put in.

Types in declarations may carry the suffix `Param`, which is taken off a name before it is looked
up; the definitions of aliases are read as they stand.
-/

namespace ApiReference

set_option autoImplicit false

/-- What a list of tokens is scanned for. -/
inductive ScanMode where
  /-- It is a type in a declaration. -/
  | declaration
  /-- It is the definition of the alias with this key. -/
  | definition (key : String)
deriving DecidableEq, Repr

namespace ScanMode

/-- The key of the alias whose definition is scanned. -/
def ownKey? : ScanMode → Option String
  | declaration => none
  | definition key => some key

end ScanMode

/-- The suffix by which a declaration spells the type of a parameter. -/
def parameterSuffix : String := "Param"

/-- Take the suffix of parameter types off a text that is longer than the suffix. -/
def stripParameterSuffix (text : String) : String :=
  let characters := text.toList
  let suffix := parameterSuffix.toList
  if suffix.isSuffixOf characters && suffix.length < characters.length then
    String.ofList (characters.take (characters.length - suffix.length))
  else text

namespace Token

/-- Take the suffix of parameter types off an identifier. -/
def stripped (token : Token) : Token :=
  if token.kind = .identifier then { token with text := stripParameterSuffix token.text } else token

end Token

namespace ScanMode

/-- How a token is spelled when it is looked up. -/
def spelling : ScanMode → Token → Token
  | declaration, token => token.stripped
  | definition _, token => token

end ScanMode

namespace AliasTable

/-- Walk over the tokens from a position on and substitute what hits.  The flag tells whether
anything was substituted. -/
def scanFrom (table : AliasTable) (mode : ScanMode) (scope : Scope) (position : Nat)
    (tokens : List Token) : List Token × Bool :=
  if _inside : position < tokens.length then
    let window := tokens.modify position mode.spelling
    match table.lookup window position scope mode.ownKey? with
    | .hit entry =>
      let (result, _) := table.scanFrom mode scope (position + entry.definition.length)
        (Token.splice position entry.definition window)
      (result, true)
    | _ => table.scanFrom mode scope (position + 1) window
  else (tokens, false)
termination_by tokens.length - position
decreasing_by
  · have inside : position < (tokens.modify position mode.spelling).length := by
      rw [List.length_modify]
      assumption
    have length := @Token.length_splice _ entry.definition _ inside
    rw [List.length_modify] at length
    omega
  · rw [List.length_modify]
    omega

/-- Substitute the aliases in a list of tokens, as seen from a scope. -/
def substitute (table : AliasTable) (mode : ScanMode) (scope : Scope) (tokens : List Token) :
    List Token × Bool :=
  table.scanFrom mode scope 0 tokens

end AliasTable

end ApiReference
