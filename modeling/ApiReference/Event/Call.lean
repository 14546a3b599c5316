import ApiReference.Event.Table
import ApiReference.Token.Sequence

/-!
# Calls that name an event

A source line uses an event when it holds the name of one of a few functions and, before one of its
commas, the name of a known event.  Which comma it is depends on the function; commas are counted
from the start of the line, whatever call they belong to.
-/

namespace ApiReference

set_option autoImplicit false

/-- A function that takes the name of an event. -/
structure EventFunction where
  name : String
  /-- The event stands before this comma of the line, counted from one. -/
  comma : Nat
  role : EventRole
deriving DecidableEq, Repr

/-- The functions that take the name of an event, in the order in which they are tried. -/
def eventFunctions : List EventFunction :=
  [⟨"DispatchEvent", 1, .sends⟩, ⟨"CreateCollisionEvent", 3, .sends⟩, ⟨"Dispatch", 1, .sends⟩,
    ⟨"SendButtonEvent", 2, .sends⟩, ⟨"QueueSyncedEvent", 1, .sends⟩, ⟨"Connect", 2, .listens⟩,
    ⟨"ConnectThisTo", 2, .listens⟩]

/-- The token before a comma, counted from one; `previous?` is the token before the list. -/
def tokenBeforeComma? (comma : Nat) (previous? : Option Token) : List Token → Option Token
  | [] => none
  | token :: following =>
    if token.kind = .comma then
      if comma ≤ 1 then previous? else tokenBeforeComma? (comma - 1) (some token) following
    else tokenBeforeComma? comma (some token) following

namespace EventFunction

/-- The known event that a line gives to the function. -/
def eventIn? (function : EventFunction) (known : EventTable) (line : List Token) :
    Option String :=
  if line.contains (Token.ofWord function.name) then
    ((tokenBeforeComma? function.comma none line).map Token.text).filter known.contains
  else none

end EventFunction

/-- The event that a line uses, and how; the first function that applies decides. -/
def eventUse? (known : EventTable) (line : List Token) : Option (String × EventRole) :=
  eventFunctions.findSome? fun function =>
    (function.eventIn? known line).map fun event => (event, function.role)

end ApiReference
