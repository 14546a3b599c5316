import ApiReference.Proofs.Event.Table
import ApiReference.Proofs.Library.Pages
import ApiReference.Source.Scan

/-!
# Positions that a scan holds

A scan looks up its class once and holds positions of pages from then on, while it records in the
very library that they are positions of.  If a record moved a page, or if an index were wrong, what
is recorded next would go to another class, and nothing would tell.

Nothing that the scan of an implementation records moves a class or an event
(`Library.position?_scanSource`), and the scan of a header puts events at most behind those that are
known (`Library.position?_scanHeader`).  So what is held stays the position of the class that was
looked up.  A scan by positions therefore comes to the same as one that goes by names and looks for
the class at each record (`Library.scanSource_eq`, `Library.scanHeader_atOnce`), and it is in this
form that scans are reasoned about.
-/

set_option autoImplicit false

namespace ApiReference

/-! ## Scanning by names -/

namespace ClassPage

/-- Record that the header of the class declares some events. -/
def declareEvents (events : List String) (page : ClassPage) : ClassPage :=
  { page with eventsSent := page.eventsSent ++ events }

@[simp]
theorem name_declareEvents (events : List String) (page : ClassPage) :
    (page.declareEvents events).name = page.name := rfl

end ClassPage

namespace Library

/-- The class has a method of the name. -/
def hasMethod (library : Library) (className method : String) : Bool :=
  (library.page? className).any (·.hasMethod method)

/-- Read `left :: right` on a function line: the left side may open a class and the right side a
function of the class that is open then. -/
def openFunction (library : Library) (left right : String) (place : SourcePlace) : SourcePlace :=
  let currentClass :=
    ((library.pageMeant? omittedBeginnings left).map ClassPage.name).getD place.currentClass
  if library.hasMethod currentClass right then ⟨currentClass, some (currentClass, right)⟩
  else { place with currentClass }

/-- Read a function line from left to right. -/
def openFunctions (library : Library) (place : SourcePlace) : List Token → SourcePlace
  | left :: middle :: right :: following =>
    library.openFunctions
      (if middle.kind = .scopeResolution then library.openFunction left.text right.text place
        else place)
      (middle :: right :: following)
  | _ => place

/-- Record that a class uses an event, with the class and with the event. -/
def recordEvent (library : Library) (className event : String) (role : EventRole) : Library :=
  let changed :=
    library.modify className (ClassPage.recordUse event role) (ClassPage.name_recordUse event role)
  { changed with events := library.events.record event className role }

/-- Record an exception with a method of a class; the flag tells whether it is new. -/
def recordException (library : Library) (className method : String)
    (exception : RaisedException) : Library × Bool :=
  (library.modify className (fun page => (page.addException method exception).1)
      (ClassPage.name_addException method exception),
    (library.page? className).any fun page => (page.addException method exception).2)

end Library

namespace SourceScan

/-- Record the use of an event on a line of a class. -/
def useEvent (home : String) (line : List Token) (scan : SourceScan) : SourceScan :=
  match eventUse? scan.library.events line with
  | none => scan
  | some (event, role) =>
    { scan with
      library := scan.library.recordEvent home event role
      eventUses := scan.eventUses + 1 }

/-- Record the exception of a line with the function that is open. -/
def notify (line : List Token) (scan : SourceScan) : SourceScan :=
  match scan.place.currentFunction?, notifiedException? line with
  | some (className, method), some exception =>
    let (library, isNew) := scan.library.recordException className method exception
    { scan with
      library
      exceptions := if isNew then scan.exceptions + 1 else scan.exceptions }
  | _, _ => scan

/-- Read a line for functions and exceptions. -/
def followFunctions (line : List Token) (scan : SourceScan) : SourceScan :=
  if line.head?.any (·.kind = .pound) then scan
  else if Token.hasKind .semicolon line then scan.notify line
  else { scan with place := scan.library.openFunctions scan.place line }

/-- Read one line of the implementation of a class. -/
def readLine (home : String) (scan : SourceScan) (line : List Token) : SourceScan :=
  (scan.useEvent home line).followFunctions line

end SourceScan

/-! ## What positions name -/

/-- A function with the position of its class's page is the one with the name of the class. -/
def Library.NamesFunction (library : Library) (held : Nat × String) (named : String × String) :
    Prop :=
  library.position? named.1 = some held.1 ∧ held.2 = named.2

/-- The positions that are held are those of the classes that are named. -/
structure HeldPlace.Names (library : Library) (held : HeldPlace) (place : SourcePlace) : Prop where
  current : library.position? place.currentClass = some held.current
  function : Option.Rel library.NamesFunction held.function? place.currentFunction?

namespace Library

variable {library : Library} {className : String} {position : Nat} {held : HeldPlace}
  {place : SourcePlace}

/-- The page that is meant is the first one that is found by a name in question. -/
theorem pageMeant?_eq (library : Library) (beginnings : List String) (name : String) :
    library.pageMeant? beginnings name =
      (name :: beginnings.map (· ++ name)).findSome? library.page? := by
  unfold pageMeant? positionMeant?
  induction name :: beginnings.map (· ++ name) with
  | nil => rfl
  | cons candidate later ih =>
    rw [List.findSome?_cons, List.findSome?_cons]
    cases known : library.position? candidate with
    | none =>
      rw [page?_of_position?_eq_none known]
      exact ih
    | some position =>
      obtain ⟨page, found⟩ := exists_page?_of_position? known
      rw [found]
      exact (getElem?_of_position? known).trans found

theorem rel_positionMeant?_pageMeant? (library : Library) (beginnings : List String)
    (name : String) :
    Option.Rel (fun position page => library.position? page.name = some position)
      (library.positionMeant? beginnings name) (library.pageMeant? beginnings name) := by
  rw [pageMeant?]
  cases meant : library.positionMeant? beginnings name with
  | none => exact .none
  | some position =>
    obtain ⟨candidate, -, known⟩ := List.exists_of_findSome?_eq_some meant
    obtain ⟨page, standsThere, rfl⟩ := position?_eq_some_iff.mp known
    rw [Option.bind_some, standsThere]
    exact .some known

theorem hasMethodAt_eq (known : library.position? className = some position) (method : String) :
    library.hasMethodAt position method = library.hasMethod className method := by
  rw [hasMethodAt, hasMethod, getElem?_of_position? known]

theorem names_openFunctionAt (names : held.Names library place) (left right : String) :
    (library.openFunctionAt left right held).Names library
      (library.openFunction left right place) := by
  have current : library.position?
      (((library.pageMeant? omittedBeginnings left).map ClassPage.name).getD place.currentClass) =
        some ((library.positionMeant? omittedBeginnings left).getD held.current) := by
    have both := library.rel_positionMeant?_pageMeant? omittedBeginnings left
    generalize library.positionMeant? omittedBeginnings left = position? at both ⊢
    generalize library.pageMeant? omittedBeginnings left = page? at both ⊢
    cases both with
    | some known => exact known
    | none => exact names.current
  unfold openFunctionAt openFunction
  simp only [hasMethodAt_eq current]
  split
  · exact ⟨current, .some ⟨current, rfl⟩⟩
  · exact ⟨current, names.function⟩

theorem names_openFunctionsAt (names : held.Names library place) (line : List Token) :
    (library.openFunctionsAt held line).Names library (library.openFunctions place line) := by
  induction line generalizing held place with
  | nil => exact names
  | cons left rest ih =>
    match rest with
    | [] | [_] => exact names
    | middle :: right :: following =>
      rw [openFunctionsAt, openFunctions]
      apply ih
      split
      · exact names_openFunctionAt names left.text right.text
      · exact names

/-! ## Records at positions -/

theorem recordEventAt_eq (known : library.position? className = some position) (event : String)
    (role : EventRole) :
    library.recordEventAt position event role = library.recordEvent className event role := by
  rw [recordEventAt, recordEvent, nameAt_of_position? known, modify_of_position? known]

theorem recordExceptionAt_eq (known : library.position? className = some position)
    (method : String) (exception : RaisedException) :
    library.recordExceptionAt position method exception =
      library.recordException className method exception := by
  rw [recordExceptionAt, recordException, modify_of_position? known, getElem?_of_position? known]

end Library

/-! ## Line by line -/

namespace HeldScan

variable {held : HeldScan} {place : SourcePlace} {className : String} {home : Nat}

/-- What a scan by names has come to where this one is. -/
def withNames (held : HeldScan) (place : SourcePlace) : SourceScan :=
  ⟨held.library, place, held.eventUses, held.exceptions⟩

theorem useEvent_withNames (isHome : held.library.position? className = some home)
    (place : SourcePlace) (line : List Token) :
    (held.withNames place).useEvent className line = (held.useEvent home line).withNames place := by
  unfold HeldScan.useEvent SourceScan.useEvent
  dsimp only [withNames]
  cases eventUse? held.library.events line with
  | none => rfl
  | some use => simp only [Library.recordEventAt_eq isHome]

theorem notify_withNames (names : held.place.Names held.library place) (line : List Token) :
    (held.withNames place).notify line = (held.notify line).withNames place := by
  have function := names.function
  unfold HeldScan.notify SourceScan.notify
  dsimp only [withNames]
  generalize held.place.function? = heldFunction? at function ⊢
  generalize place.currentFunction? = function? at function ⊢
  cases function with
  | none => rfl
  | @some heldFunction named both =>
    obtain ⟨known, sameMethod⟩ := both
    cases notifiedException? line with
    | none => rfl
    | some exception => simp only [Library.recordExceptionAt_eq known, sameMethod]

theorem names_useEvent (names : held.place.Names held.library place) (home : Nat)
    (line : List Token) :
    (held.useEvent home line).place.Names (held.useEvent home line).library place := by
  unfold HeldScan.useEvent
  split
  · exact names
  · exact ⟨names.current, names.function⟩

theorem names_notify (names : held.place.Names held.library place) (line : List Token) :
    (held.notify line).place.Names (held.notify line).library place := by
  unfold HeldScan.notify
  split
  · exact ⟨names.current, names.function⟩
  · exact names

theorem followFunctions_withNames (names : held.place.Names held.library place)
    (line : List Token) :
    ∃ next, (held.withNames place).followFunctions line =
        (held.followFunctions line).withNames next ∧
      (held.followFunctions line).place.Names (held.followFunctions line).library next := by
  unfold HeldScan.followFunctions SourceScan.followFunctions
  split
  · exact ⟨place, rfl, names⟩
  · split
    · exact ⟨place, notify_withNames names line, names_notify names line⟩
    · exact ⟨_, rfl, Library.names_openFunctionsAt names line⟩

theorem readLine_withNames (names : held.place.Names held.library place)
    (isHome : held.library.position? className = some home) (line : List Token) :
    ∃ next, (held.withNames place).readLine className line =
        (held.readLine home line).withNames next ∧
      (held.readLine home line).place.Names (held.readLine home line).library next := by
  rw [SourceScan.readLine, useEvent_withNames isHome]
  exact followFunctions_withNames (names_useEvent names home line) line

/-- Reading a line changes no position, of a class or of an event. -/
theorem index_readLine (held : HeldScan) (home : Nat) (line : List Token) :
    (held.readLine home line).library.store.index = held.library.store.index ∧
      (held.readLine home line).library.events.store.index = held.library.events.store.index := by
  have used : (held.useEvent home line).library.store.index = held.library.store.index ∧
      (held.useEvent home line).library.events.store.index = held.library.events.store.index := by
    unfold useEvent
    split
    · exact ⟨rfl, rfl⟩
    · exact ⟨rfl, IndexedList.index_modify _ _ _⟩
  rw [← used.1, ← used.2, readLine]
  generalize held.useEvent home line = next
  unfold followFunctions
  split
  · exact ⟨rfl, rfl⟩
  · split
    · unfold notify
      split
      · exact ⟨rfl, rfl⟩
      · exact ⟨rfl, rfl⟩
    · exact ⟨rfl, rfl⟩

/-- No line that was read changes a position. -/
theorem index_foldl_readLine (held : HeldScan) (home : Nat) (lines : List (List Token)) :
    (lines.foldl (readLine home) held).library.store.index = held.library.store.index ∧
      (lines.foldl (readLine home) held).library.events.store.index =
        held.library.events.store.index := by
  refine List.foldlRecOn (motive := fun next : HeldScan =>
    next.library.store.index = held.library.store.index ∧
      next.library.events.store.index = held.library.events.store.index) lines _ ⟨rfl, rfl⟩ ?_
  intro next same line _
  obtain ⟨pages, events⟩ := next.index_readLine home line
  exact ⟨pages.trans same.1, events.trans same.2⟩

/-- Line by line, the scan that holds positions stays where the scan by names is. -/
theorem foldl_readLine_withNames (names : held.place.Names held.library place)
    (isHome : held.library.position? className = some home) (lines : List (List Token)) :
    ∃ next, lines.foldl (SourceScan.readLine className) (held.withNames place) =
        (lines.foldl (readLine home) held).withNames next ∧
      (lines.foldl (readLine home) held).place.Names
        (lines.foldl (readLine home) held).library next := by
  induction lines generalizing held place with
  | nil => exact ⟨place, rfl, names⟩
  | cons line later ih =>
    obtain ⟨next, read, stillNames⟩ := readLine_withNames names isHome line
    have stillHome : (held.readLine home line).library.position? className = some home := by
      rw [Library.position?, IndexedList.position?, (held.index_readLine home line).1]
      exact isHome
    rw [List.foldl_cons, List.foldl_cons, read]
    exact ih stillNames stillHome

theorem named_eq (names : held.place.Names held.library place) :
    held.named = held.withNames place := by
  have function : held.place.function?.map (Prod.map held.library.nameAt id) =
      place.currentFunction? := by
    have both := names.function
    generalize held.place.function? = heldFunction? at both ⊢
    generalize place.currentFunction? = function? at both ⊢
    cases both with
    | none => rfl
    | @some heldFunction named both =>
      exact congrArg some (Prod.ext (Library.nameAt_of_position? both.1) both.2)
  rw [named, Library.nameAt_of_position? names.current, function]
  rfl

end HeldScan

/-! ## Scans -/

namespace Library

variable {library : Library} {className : String}

/-- To scan by positions is to scan by names. -/
theorem scanSource_eq (library : Library) (className : String) (lines : List String) :
    library.scanSource className lines =
      match library.page? className with
      | none => ⟨library, ⟨className, none⟩, 0, 0⟩
      | some _ =>
        (lines.map tokenize).foldl (SourceScan.readLine className)
          ⟨library, ⟨className, none⟩, 0, 0⟩ := by
  rw [scanSource]
  cases known : library.position? className with
  | none => rw [page?_of_position?_eq_none known]
  | some home =>
    obtain ⟨page, found⟩ := exists_page?_of_position? known
    let start : HeldScan := ⟨library, ⟨home, none⟩, 0, 0⟩
    have names : start.place.Names start.library ⟨className, none⟩ := ⟨known, .none⟩
    obtain ⟨next, read, stillNames⟩ :=
      HeldScan.foldl_readLine_withNames names known (lines.map tokenize)
    rw [found]
    exact (HeldScan.named_eq stillNames).trans read.symm

/-- The scan of an implementation moves no class and no event. -/
theorem position?_scanSource (library : Library) (className : String) (lines : List String) :
    (library.scanSource className lines).library.position? = library.position? ∧
      (library.scanSource className lines).library.events.store.position? =
        library.events.store.position? := by
  rw [scanSource]
  cases library.position? className with
  | none => exact ⟨rfl, rfl⟩
  | some home =>
    obtain ⟨pages, events⟩ := HeldScan.index_foldl_readLine ⟨library, ⟨home, none⟩, 0, 0⟩ home
      (lines.map tokenize)
    constructor
    · funext name
      exact congrArg (fun index => index[name]?) pages
    · funext name
      exact congrArg (fun index => index[name]?) events

/-! ## Headers -/

/-- The events that a header declares are recorded at once where the class is. -/
theorem foldl_declareEventAt (library : Library) (position : Nat) (declared : List String) :
    declared.foldl (declareEventAt position) library =
      { library.modifyAt position (ClassPage.declareEvents declared)
          (ClassPage.name_declareEvents declared) with
        events := library.events.addAll declared } := by
  induction declared generalizing library with
  | nil =>
    have nothing : ClassPage.declareEvents [] = id := by
      funext page
      rw [ClassPage.declareEvents, List.append_nil]
      rfl
    have same := List.modify_id position library.pages
    rw [← nothing] at same
    exact ext same.symm rfl rfl rfl
  | cons event later ih =>
    have together : ClassPage.declareEvents later ∘ ClassPage.declareEvent event =
        ClassPage.declareEvents (event :: later) := by
      funext page
      rw [Function.comp_apply, ClassPage.declareEvents, ClassPage.declareEvents,
        ClassPage.declareEvent, List.append_assoc]
      rfl
    have inTurn := List.modify_modify_eq (ClassPage.declareEvent event)
      (ClassPage.declareEvents later) position library.pages
    rw [together] at inTurn
    rw [List.foldl_cons, ih]
    exact ext inTurn rfl rfl rfl

/-- To scan a header by the position of its class is to scan it by the name. -/
theorem scanHeader_atOnce (library : Library) (className : String) (lines : List String) :
    library.scanHeader className lines =
      match library.page? className with
      | none => (library, 0)
      | some _ =>
        ({ library.modify className (ClassPage.declareEvents (declaredEvents lines))
            (ClassPage.name_declareEvents _) with
          events := library.events.addAll (declaredEvents lines) },
          (declaredEvents lines).length) := by
  rw [scanHeader]
  cases known : library.position? className with
  | none => rw [page?_of_position?_eq_none known]
  | some position =>
    obtain ⟨page, found⟩ := exists_page?_of_position? known
    rw [found, modify_of_position? known]
    exact congrArg (Prod.mk · _) (library.foldl_declareEventAt position _)

/-- The scan of a header moves no class, and no event that is known. -/
theorem position?_scanHeader (library : Library) (className : String) (lines : List String) :
    (library.scanHeader className lines).1.position? = library.position? ∧
      ∀ event position, library.events.store.position? event = some position →
        (library.scanHeader className lines).1.events.store.position? event = some position := by
  rw [scanHeader_atOnce]
  cases library.page? className with
  | none => exact ⟨rfl, fun _ _ known => known⟩
  | some page =>
    refine ⟨?_, fun event position known => library.events.position?_addAll _ known⟩
    have sameIndex := IndexedList.index_modify library.store className
      (ClassPage.declareEvents (declaredEvents lines))
    funext name
    exact congrArg (fun index => index[name]?) sameIndex

end Library

end ApiReference
