import ApiReference.Event.Call
import ApiReference.Library.Basic
import ApiReference.Source.Argument

/-!
# Scanning source lines

What a class's own source tells about it, found line by line and by the look of the lines alone.

A header line that mentions `Events :: Name` declares an event that the class sends.  In the
implementation, any line may use a known event.  Of the other lines those count that do not open
with `#`: one with a semicolon may notify the user of an exception, and one without may open a
function, which is what `Class :: function` looks like.  An exception belongs to the function that
was opened last.

A scan looks its class up once.  From then on it holds positions of pages, also for the classes that
source lines open, and records what it finds at these positions.
-/

namespace ApiReference

set_option autoImplicit false

/-! ## Header lines -/

/-- The event that a header line declares. -/
def declaredEvent? (line : List Token) : Option String :=
  ((line.dropWhile (·.text ≠ "Events"))[2]?).map Token.text

/-- The events that header lines declare. -/
def declaredEvents (lines : List String) : List String :=
  lines.filterMap fun line => declaredEvent? (tokenize line)

namespace ClassPage

/-- Record that the header of the class declares an event. -/
def declareEvent (event : String) (page : ClassPage) : ClassPage :=
  { page with eventsSent := page.eventsSent ++ [event] }

@[simp]
theorem name_declareEvent (event : String) (page : ClassPage) :
    (page.declareEvent event).name = page.name := rfl

end ClassPage

namespace Library

/-- Record an event that the header of the class at a position declares. -/
def declareEventAt (position : Nat) (library : Library) (event : String) : Library :=
  let changed :=
    library.modifyAt position (ClassPage.declareEvent event) (ClassPage.name_declareEvent event)
  { changed with events := library.events.add event }

/-- Record the events that the header of a class declares, and return how many lines did. -/
def scanHeader (library : Library) (className : String) (lines : List String) : Library × Nat :=
  match library.position? className with
  | none => (library, 0)
  | some position =>
    let declared := declaredEvents lines
    (declared.foldl (declareEventAt position) library, declared.length)

end Library

/-! ## Exceptions -/

/-- The function that notifies the user of an exception. -/
def notifyFunction : String := "DoNotifyException"

/-- What stands for a text that is not known before the program runs. -/
def variableText : String := "[variable]"

/-- A literal without the quotes around it. -/
def unquote (literal : String) : String :=
  String.ofList (trimBoth isQuote literal.toList)

/-- The exception that a line notifies the user of.  At least one of the two texts must be a
literal. -/
def notifiedException? (line : List Token) : Option RaisedException :=
  if line.contains (Token.ofWord notifyFunction) then
    match literalArgument? line 1, literalArgument? line 2 with
    | none, none => none
    | title?, message? =>
      some ⟨(title?.map unquote).getD variableText, (message?.map unquote).getD variableText⟩
  else none

/-! ## Implementation lines -/

/-- Beginnings of class names that source lines leave out. -/
def omittedBeginnings : List String := ["Zero", "Zilch"]

/-- Where in the source one is: in which class, and in which of whose functions. -/
structure SourcePlace where
  currentClass : String
  currentFunction? : Option (String × String)
deriving DecidableEq, Repr

/-- What the scan of an implementation comes to. -/
structure SourceScan where
  library : Library
  place : SourcePlace
  /-- The uses of events so far. -/
  eventUses : Nat
  /-- The exceptions recorded so far. -/
  exceptions : Nat
deriving DecidableEq, Repr

/-- Where in the source one is, with the positions of pages for the names of classes. -/
structure HeldPlace where
  current : Nat
  function? : Option (Nat × String)
deriving DecidableEq, Repr

/-- How far an implementation is scanned. -/
structure HeldScan where
  library : Library
  place : HeldPlace
  eventUses : Nat
  exceptions : Nat
deriving DecidableEq, Repr

namespace ClassPage

/-- Record that the class uses an event. -/
def recordUse (event : String) (role : EventRole) (page : ClassPage) : ClassPage :=
  match role with
  | .sends => { page with eventsSent := page.eventsSent ++ [event] }
  | .listens => { page with eventsListened := page.eventsListened ++ [event] }

@[simp]
theorem name_recordUse (event : String) (role : EventRole) (page : ClassPage) :
    (page.recordUse event role).name = page.name := by
  cases role <;> rfl

end ClassPage

namespace Library

/-- The page at a position has a method of the name. -/
def hasMethodAt (library : Library) (position : Nat) (method : String) : Bool :=
  library.pages[position]?.any (·.hasMethod method)

/-- Read `left :: right` on a function line: the left side may open a class and the right side a
function of the class that is open then. -/
def openFunctionAt (library : Library) (left right : String) (place : HeldPlace) : HeldPlace :=
  let current := (library.positionMeant? omittedBeginnings left).getD place.current
  if library.hasMethodAt current right then ⟨current, some (current, right)⟩
  else { place with current }

/-- Read a function line from left to right. -/
def openFunctionsAt (library : Library) (place : HeldPlace) : List Token → HeldPlace
  | left :: middle :: right :: following =>
    library.openFunctionsAt
      (if middle.kind = .scopeResolution then library.openFunctionAt left.text right.text place
        else place)
      (middle :: right :: following)
  | _ => place

/-- Record that the class at a position uses an event, on its page and with the event. -/
def recordEventAt (library : Library) (position : Nat) (event : String) (role : EventRole) :
    Library :=
  let changed :=
    library.modifyAt position (ClassPage.recordUse event role) (ClassPage.name_recordUse event role)
  { changed with events := library.events.record event (library.nameAt position) role }

/-- Record an exception with a method of the class at a position; the flag tells whether it is
new. -/
def recordExceptionAt (library : Library) (position : Nat) (method : String)
    (exception : RaisedException) : Library × Bool :=
  (library.modifyAt position (fun page => (page.addException method exception).1)
      (ClassPage.name_addException method exception),
    library.pages[position]?.any fun page => (page.addException method exception).2)

end Library

namespace HeldScan

/-- Record the use of an event on a line of the class at home. -/
def useEvent (home : Nat) (line : List Token) (scan : HeldScan) : HeldScan :=
  match eventUse? scan.library.events line with
  | none => scan
  | some (event, role) =>
    { scan with
      library := scan.library.recordEventAt home event role
      eventUses := scan.eventUses + 1 }

/-- Record the exception of a line with the function that is open. -/
def notify (line : List Token) (scan : HeldScan) : HeldScan :=
  match scan.place.function?, notifiedException? line with
  | some (position, method), some exception =>
    let (library, isNew) := scan.library.recordExceptionAt position method exception
    { scan with
      library
      exceptions := if isNew then scan.exceptions + 1 else scan.exceptions }
  | _, _ => scan

/-- Read a line for functions and exceptions. -/
def followFunctions (line : List Token) (scan : HeldScan) : HeldScan :=
  if line.head?.any (·.kind = .pound) then scan
  else if Token.hasKind .semicolon line then scan.notify line
  else { scan with place := scan.library.openFunctionsAt scan.place line }

/-- Read one line of the implementation of the class at home. -/
def readLine (home : Nat) (scan : HeldScan) (line : List Token) : HeldScan :=
  (scan.useEvent home line).followFunctions line

/-- The scan with the names of the classes whose positions it holds. -/
def named (scan : HeldScan) : SourceScan :=
  ⟨scan.library,
    ⟨scan.library.nameAt scan.place.current,
      scan.place.function?.map (Prod.map scan.library.nameAt id)⟩,
    scan.eventUses, scan.exceptions⟩

end HeldScan

namespace Library

/-- Read the implementation of a class. -/
def scanSource (library : Library) (className : String) (lines : List String) : SourceScan :=
  match library.position? className with
  | none => ⟨library, ⟨className, none⟩, 0, 0⟩
  | some home =>
    ((lines.map tokenize).foldl (HeldScan.readLine home) ⟨library, ⟨home, none⟩, 0, 0⟩).named

end Library

end ApiReference
