import ApiReference.Json.Numeral
import ApiReference.Json.Quoted

/-!
# Skipping values

A record passes over fields it does not know, whatever their value is, as long as it is JSON.
`skipValue` keeps a stack of the lists and objects the value stands in.  Behind every value,
`skipBehind` looks for the comma or the bracket that goes on, and each of the two takes at least one
character.
-/

namespace ApiReference

set_option autoImplicit false

/-- What a skipped value stands in. -/
inductive Enclosure where
  | list
  | object
deriving DecidableEq, Repr

/-- The bracket that closes an enclosure. -/
def Enclosure.closer : Enclosure → Char
  | list => ']'
  | object => '}'

/-- Skip a value that holds no other. -/
def skipScalar : JsonReader Unit := fun text =>
  match text with
  | [] => .error .endOfText
  | first :: following =>
    if first = '"' then do
      let quoted ← readUpToQuote looseEscape following
      .ok ((quoted.withValue ()).ofLe (length_le_cons first following))
    else if first = '-' ∨ first.isDigit then do
      let numeral ← readNumeral .malformed (first :: following)
      .ok (numeral.withValue ())
    else
      match lettersAfter? first with
      | none => .error .malformed
      | some letters =>
        match passed : passLetters letters following with
        | .error failure => .error failure
        | .ok rest => .ok ⟨(), rest, Nat.lt_succ_of_le (passLetters_length passed)⟩

/-- Skip a key with its colon. -/
def skipKey : JsonReader Unit := fun text =>
  match head : skipSpaces text with
  | [] => .error .endOfText
  | first :: following =>
    if first = '"' then do
      let key ← readUpToQuote looseEscape following
      let colon ← passMark ':' key.rest
      .ok ⟨(), colon.rest,
        Nat.lt_trans colon.shorter (Nat.lt_trans key.shorter (length_lt_of_skipSpaces head))⟩
    else .error .malformed

mutual

/-- Skip a value, and everything up to the end of what it stands in. -/
def skipValue (enclosures : List Enclosure) (text : List Char) :
    Except JsonFailure (Reading Unit text) :=
  match head : skipSpaces text with
  | [] => .error .endOfText
  | first :: following =>
    have shorter := length_lt_of_skipSpaces head
    if first = '[' then
      match head' : skipSpaces following with
      | [] => .error .endOfText
      | next :: beyond =>
        have shorter' := length_lt_of_skipSpaces head'
        if next = ']' then do
          let rest ← skipBehind enclosures beyond
          .ok ⟨(), rest.1, by have := rest.2; omega⟩
        else do
          let rest ← skipValue (.list :: enclosures) following
          .ok ⟨(), rest.rest, by have := rest.shorter; omega⟩
    else if first = '\x7b' then
      match head' : skipSpaces following with
      | [] => .error .endOfText
      | next :: beyond =>
        have shorter' := length_lt_of_skipSpaces head'
        if next = '\x7d' then do
          let rest ← skipBehind enclosures beyond
          .ok ⟨(), rest.1, by have := rest.2; omega⟩
        else do
          let key ← skipKey following
          have keyShorter := key.shorter
          let rest ← skipValue (.object :: enclosures) key.rest
          .ok ⟨(), rest.rest, by have := rest.shorter; omega⟩
    else do
      let scalar ← skipScalar (first :: following)
      have scalarShorter : scalar.rest.length < text.length :=
        Nat.lt_of_lt_of_le scalar.shorter shorter
      let rest ← skipBehind enclosures scalar.rest
      .ok ⟨(), rest.1, by have := rest.2; omega⟩
termination_by text.length

/-- Behind a value, go on to the end of what it stands in. -/
def skipBehind (enclosures : List Enclosure) (text : List Char) :
    Except JsonFailure { rest : List Char // rest.length ≤ text.length } :=
  match enclosures with
  | [] => .ok ⟨text, length_le_self text⟩
  | enclosure :: outer =>
    match head : skipSpaces text with
    | [] => .error .endOfText
    | first :: following =>
      have shorter := length_lt_of_skipSpaces head
      if first = enclosure.closer then do
        let rest ← skipBehind outer following
        .ok ⟨rest.1, by have := rest.2; omega⟩
      else if first = ',' then
        match enclosure with
        | .list => do
          let rest ← skipValue (.list :: outer) following
          .ok ⟨rest.rest, by have := rest.shorter; omega⟩
        | .object => do
          let key ← skipKey following
          have keyShorter := key.shorter
          let rest ← skipValue (.object :: outer) key.rest
          .ok ⟨rest.rest, by have := rest.shorter; omega⟩
      else .error .malformed
termination_by text.length

end

end ApiReference
