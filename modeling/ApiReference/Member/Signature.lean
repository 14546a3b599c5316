import ApiReference.Token.Sequence

/-!
# Signatures

Two declarations of a method are the same overload when their signatures agree: the names are
equal, there are as many parameters, and in every slot, which is the return type or the type of a
parameter, the types have the same texts or one of them is the wildcard.  An `Agreement` tells on
which sides a wildcard was needed.  It decides which of the two signatures is kept: the one declared
earlier, unless it alone held wildcards.
-/

namespace ApiReference

set_option autoImplicit false

/-- The name and the types of a method. -/
structure Signature where
  name : String
  returnType : List Token
  parameterTypes : List (List Token)
deriving DecidableEq, Repr, Inhabited

/-- The sides that held a wildcard in a slot whose types differ. -/
structure Agreement where
  earlierWildcard : Bool
  laterWildcard : Bool
deriving DecidableEq, Repr, Inhabited

/-- The two declarations that are compared. -/
inductive Side where
  | earlier
  | later
deriving DecidableEq, Repr

namespace Agreement

/-- The types are equal. -/
def exact : Agreement := ⟨false, false⟩

/-- No slot needed a wildcard. -/
def isExact (agreement : Agreement) : Bool :=
  !agreement.earlierWildcard && !agreement.laterWildcard

/-- The side whose types are kept: the later one only if the earlier one alone held wildcards. -/
def canonicalSide (agreement : Agreement) : Side :=
  if agreement.earlierWildcard && !agreement.laterWildcard then .later else .earlier

/-- The wildcards of either agreement. -/
def union (left right : Agreement) : Agreement :=
  ⟨left.earlierWildcard || right.earlierWildcard, left.laterWildcard || right.laterWildcard⟩

/-- The same agreement seen from the other side. -/
def swap (agreement : Agreement) : Agreement :=
  ⟨agreement.laterWildcard, agreement.earlierWildcard⟩

end Agreement

/-- How the types of one slot agree, if they do. -/
def slotAgreement? (earlier later : List Token) : Option Agreement :=
  if Token.sameTexts earlier later then some .exact
  else if Token.startsWithWildcard earlier || Token.startsWithWildcard later then
    some ⟨Token.startsWithWildcard earlier, Token.startsWithWildcard later⟩
  else none

/-- How lists of types agree slot by slot, if they are equally long and do. -/
def slotsAgreement? : List (List Token) → List (List Token) → Option Agreement
  | [], [] => some .exact
  | earlier :: earlierRest, later :: laterRest => do
    let first ← slotAgreement? earlier later
    let others ← slotsAgreement? earlierRest laterRest
    some (first.union others)
  | _, _ => none

namespace Signature

/-- The types of a signature, the return type first. -/
def slots (signature : Signature) : List (List Token) :=
  signature.returnType :: signature.parameterTypes

/-- How two signatures agree, if they do. -/
def agreement? (earlier later : Signature) : Option Agreement :=
  if earlier.name = later.name then slotsAgreement? earlier.slots later.slots else none

end Signature

end ApiReference
