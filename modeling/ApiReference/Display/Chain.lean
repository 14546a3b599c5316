import ApiReference.Token.Sequence

/-!
# Scope chains

A scope chain is a run of segments with `::` between them, which may also open or end with `::`.
On display it collapses to its last segment.  One idiom is exempt: an enumeration that is named by
its scope ends in the segment `Enum`, and such a chain shows its other segments instead.

`readChain` splits a chain off the head of a list, and `readChain_rest_length` says that it takes at
least the token the chain opens with.
-/

namespace ApiReference

set_option autoImplicit false

/-- A scope chain: its segments, and whether it ends in `::`. -/
structure ScopeChain where
  segments : List String
  endsInScope : Bool
deriving DecidableEq, Repr

namespace ScopeChain

/-- The segment that marks an enumeration named by its scope. -/
def enumSegment : String := "Enum"

/-- The segments a chain shows from: one that ends in `::` has lost its last segment. -/
def shownSegments (chain : ScopeChain) : List String :=
  if chain.endsInScope then chain.segments.dropLast else chain.segments

/-- The text of a chain on display. -/
def displayText (chain : ScopeChain) : String :=
  match chain.shownSegments.getLast? with
  | none => ""
  | some last =>
    if last = enumSegment ∧ 1 < chain.shownSegments.length then
      "::".intercalate chain.shownSegments.dropLast
    else last

end ScopeChain

namespace Token

/-- Identifiers and the enumeration marker are the segments of chains. -/
def isSegment (token : Token) : Bool :=
  token.kind = .identifier || token.kind = .enumMarker

/-- The token is `::`. -/
def isScope (token : Token) : Bool :=
  token.kind = .scopeResolution

/-- A chain opens with `::`, or with a segment that `::` follows. -/
def opensChain (token : Token) (following : List Token) : Bool :=
  token.isScope || (token.isSegment && following.head?.any isScope)

/-- Read segments with `::` between them, and return the chain with what follows it. -/
def readSegments : List Token → ScopeChain × List Token
  | [] => (⟨[], true⟩, [])
  | token :: following =>
    if token.isSegment then
      match following with
      | [] => (⟨[token.text], false⟩, [])
      | next :: beyond =>
        if next.isScope then
          let (chain, rest) := readSegments beyond
          ({ chain with segments := token.text :: chain.segments }, rest)
        else (⟨[token.text], false⟩, next :: beyond)
    else (⟨[], true⟩, token :: following)

/-- Read the chain that a token opens, and return it with what follows it. -/
def readChain (token : Token) (following : List Token) : ScopeChain × List Token :=
  if token.isScope then readSegments following else readSegments (token :: following)

theorem readSegments_rest_length (tokens : List Token) :
    (readSegments tokens).2.length ≤ tokens.length := by
  fun_induction readSegments tokens with
  | case1 => exact Nat.le_refl _
  | case2 => exact Nat.zero_le _
  | case3 token segment next beyond scope chain rest equation ih =>
    simp only [List.length_cons] at ih ⊢
    have : rest = (readSegments beyond).2 := by rw [equation]
    rw [this]
    omega
  | case4 => exact Nat.le_succ _
  | case5 => exact Nat.le_refl _

theorem readChain_rest_length {token : Token} {following : List Token}
    (opens : opensChain token following = true) :
    (readChain token following).2.length ≤ following.length := by
  unfold readChain
  split
  · exact readSegments_rest_length following
  · rename_i noScope
    simp only [opensChain, noScope, Bool.false_or, Bool.and_eq_true] at opens
    cases following with
    | nil => simp at opens
    | cons next beyond =>
      have scope : next.isScope = true := by simpa using opens.2
      have shorter := readSegments_rest_length beyond
      simp only [readSegments, opens.1, scope, if_true, List.length_cons]
      omega

end Token

end ApiReference
