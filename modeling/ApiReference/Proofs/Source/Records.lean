import ApiReference.Proofs.Member.Exceptions
import ApiReference.Proofs.Source.EventUse

/-!
# What source lines have a library record

A source line has a library record at most two things: the use of an event by the class whose source
it is, and an exception of the function that is open.  What it has recorded depends on little of the
library, namely on which classes there are, on the names of their methods, and on which events are
known (`SameOutline`).  Recording changes none of these.

So all that an implementation has recorded can be listed beforehand, and to scan it is to record
that list (`library_scanSource`).  What a list of records makes of a page and of an event is then
said without going through the lines again (`foldl_onPage`, `foldl_onEvent`).
-/

set_option autoImplicit false

namespace ApiReference

/-! ## Records -/

/-- What a source line has a library record. -/
inductive SourceRecord where
  | uses (className event : String) (role : EventRole)
  | raises (className method : String) (exception : RaisedException)
deriving DecidableEq, Repr

namespace SourceRecord

/-- Make a record in a library. -/
def apply (library : Library) : SourceRecord → Library
  | uses className event role => library.recordEvent className event role
  | raises className method exception => (library.recordException className method exception).1

/-- Make a record on a page, if it is about the class of that page. -/
def onPage (page : ClassPage) : SourceRecord → ClassPage
  | uses className event role =>
    if page.name = className then page.recordUse event role else page
  | raises className method exception =>
    if page.name = className then
      { page with methods := Method.raise page.methods (method, exception) }
    else page

/-- Make a record with an event, if it is about that event. -/
def onEvent (event : Event) : SourceRecord → Event
  | uses className name role => EventTable.recordAt name className role event
  | raises _ _ _ => event

/-- The event that the class uses, as far as the record says so. -/
def usedBy? (className : String) (role : EventRole) : SourceRecord → Option String
  | uses user event use => if user = className ∧ use = role then some event else none
  | raises _ _ _ => none

/-- The class that uses the event, as far as the record says so. -/
def userOf? (name : String) (role : EventRole) : SourceRecord → Option String
  | uses user event use => if event = name ∧ use = role then some user else none
  | raises _ _ _ => none

/-- The exception that a function of the class raises, as far as the record says so. -/
def raisedBy? (className : String) : SourceRecord → Option (String × RaisedException)
  | uses _ _ _ => none
  | raises owner method exception => if owner = className then some (method, exception) else none

@[simp]
theorem name_onPage (page : ClassPage) (record : SourceRecord) :
    (record.onPage page).name = page.name := by
  cases record with
  | uses className event role =>
    exact IndexedList.KeepsName.ite (ClassPage.name_recordUse event role) className page
  | raises className method exception =>
    exact IndexedList.KeepsName.ite (ClassPage.name_addException method exception) className page

@[simp]
theorem name_onEvent (event : Event) (record : SourceRecord) :
    (record.onEvent event).name = event.name := by
  cases record with
  | uses className name role => exact EventTable.name_recordAt name className role event
  | raises className method exception => rfl

theorem usedBy?_eq_some_iff {className event : String} {role : EventRole}
    {record : SourceRecord} :
    record.usedBy? className role = some event ↔ record = .uses className event role := by
  cases record with
  | uses user name use =>
    rw [usedBy?, Option.ite_none_right_eq_some, Option.some.injEq, uses.injEq, and_assoc,
      and_comm (a := use = role)]
  | raises owner method exception => simp [usedBy?]

theorem userOf?_eq_some_iff {name className : String} {role : EventRole}
    {record : SourceRecord} :
    record.userOf? name role = some className ↔ record = .uses className name role := by
  cases record with
  | uses user event use =>
    rw [userOf?, Option.ite_none_right_eq_some, Option.some.injEq, uses.injEq, and_comm]
  | raises owner method exception => simp [userOf?]

end SourceRecord

/-! ## What records make of a page and of an event -/

section Closed

open SourceRecord

/-- A page after some records: what they say about its class is put behind what was there. -/
theorem foldl_onPage (records : List SourceRecord) (page : ClassPage) :
    records.foldl onPage page =
      { page with
        methods := (records.filterMap (raisedBy? page.name)).foldl Method.raise page.methods
        eventsSent := page.eventsSent ++ records.filterMap (usedBy? page.name .sends)
        eventsListened :=
          page.eventsListened ++ records.filterMap (usedBy? page.name .listens) } := by
  induction records generalizing page with
  | nil => simp
  | cons record later ih =>
    rw [List.foldl_cons, ih, name_onPage]
    cases record with
    | uses className event role =>
      by_cases here : page.name = className
      · cases role <;>
          simp [onPage, ClassPage.recordUse, List.filterMap_cons, usedBy?, raisedBy?, here]
      · simp [onPage, List.filterMap_cons, usedBy?, raisedBy?, here, Ne.symm here]
    | raises className method exception =>
      by_cases here : page.name = className
      · simp [onPage, List.filterMap_cons, usedBy?, raisedBy?, here]
      · simp [onPage, List.filterMap_cons, usedBy?, raisedBy?, here, Ne.symm here]

/-- An event after some records: what they say about it is put behind what was there. -/
theorem foldl_onEvent (records : List SourceRecord) (event : Event) :
    records.foldl onEvent event =
      { event with
        senders := event.senders ++ records.filterMap (userOf? event.name .sends)
        listeners := event.listeners ++ records.filterMap (userOf? event.name .listens) } := by
  induction records generalizing event with
  | nil => simp
  | cons record later ih =>
    rw [List.foldl_cons, ih, name_onEvent]
    cases record with
    | uses className name role =>
      by_cases here : event.name = name
      · cases role <;> simp [onEvent, EventTable.recordAt, Event.record, userOf?, here]
      · simp [onEvent, EventTable.recordAt, userOf?, here, Ne.symm here]
    | raises className method exception => simp [onEvent, List.filterMap_cons, userOf?]

theorem name_foldl_onEvent (records : List SourceRecord) (event : Event) :
    (records.foldl onEvent event).name = event.name := by
  rw [foldl_onEvent]

end Closed

/-! ## What records make of a library -/

namespace Library

variable {library : Library}

theorem pages_apply (library : Library) (record : SourceRecord) :
    (record.apply library).pages = library.pages.map record.onPage := by
  cases record with
  | uses className event role =>
    exact library.pages_modify className _ (ClassPage.name_recordUse event role)
  | raises className method exception =>
    exact library.pages_modify className _ (ClassPage.name_addException method exception)

theorem events_apply (library : Library) (record : SourceRecord) :
    (record.apply library).events.events = library.events.events.map record.onEvent := by
  cases record with
  | uses className event role => exact library.events_recordEvent className event role
  | raises className method exception => exact (List.map_id' _).symm

theorem pages_foldl_apply (records : List SourceRecord) (library : Library) :
    (records.foldl SourceRecord.apply library).pages =
      library.pages.map fun page => records.foldl SourceRecord.onPage page := by
  induction records generalizing library with
  | nil => exact (List.map_id' _).symm
  | cons record later ih =>
    rw [List.foldl_cons, ih, pages_apply, List.map_map]
    rfl

theorem page?_foldl_apply (records : List SourceRecord) (library : Library) (name : String) :
    (records.foldl SourceRecord.apply library).page? name =
      (library.page? name).map fun page => records.foldl SourceRecord.onPage page := by
  rw [page?_eq, page?_eq, pages_foldl_apply, List.find?_map]
  simp only [Function.comp_def, foldl_onPage]

theorem events_foldl_apply (records : List SourceRecord) (library : Library) :
    (records.foldl SourceRecord.apply library).events.events =
      library.events.events.map fun event => records.foldl SourceRecord.onEvent event := by
  induction records generalizing library with
  | nil => exact (List.map_id' _).symm
  | cons record later ih =>
    rw [List.foldl_cons, ih, events_apply, List.map_map]
    rfl

/-- Records are about classes and events alone. -/
theorem rest_foldl_apply (records : List SourceRecord) (library : Library) :
    (records.foldl SourceRecord.apply library).enumerations = library.enumerations ∧
      (records.foldl SourceRecord.apply library).flags = library.flags := by
  refine List.foldlRecOn (motive := fun later : Library =>
    later.enumerations = library.enumerations ∧ later.flags = library.flags) records _ ⟨rfl, rfl⟩ ?_
  intro later kept record _
  cases record with
  | uses className event role => exact kept
  | raises className method exception => exact kept

/-! ## What the reading of source lines goes by -/

/-- The names of the methods of a class. -/
def methodNames? (library : Library) (className : String) : Option (List String) :=
  (library.page? className).map fun page => page.methods.map Method.name

/-- The same classes with methods of the same names, and the same known events. -/
structure SameOutline (left right : Library) : Prop where
  methodNames : left.methodNames? = right.methodNames?
  known : left.events.contains = right.events.contains

theorem SameOutline.refl (library : Library) : library.SameOutline library :=
  ⟨rfl, rfl⟩

theorem SameOutline.trans {left middle right : Library} (first : left.SameOutline middle)
    (second : middle.SameOutline right) : left.SameOutline right :=
  ⟨first.methodNames.trans second.methodNames, first.known.trans second.known⟩

theorem methodNames_onPage (page : ClassPage) (record : SourceRecord) :
    (record.onPage page).methods.map Method.name = page.methods.map Method.name := by
  cases record with
  | uses className event role => cases role <;> simp only [SourceRecord.onPage] <;> split <;> rfl
  | raises className method exception =>
    simp only [SourceRecord.onPage]
    split
    · exact Method.names_raise page.methods _
    · rfl

theorem sameOutline_apply (library : Library) (record : SourceRecord) :
    (record.apply library).SameOutline library := by
  constructor
  · funext className
    rw [methodNames?, methodNames?, page?_eq, page?_eq, pages_apply, List.find?_map, Option.map_map]
    simp only [Function.comp_def, SourceRecord.name_onPage, methodNames_onPage]
  · funext name
    have names : (record.apply library).events.events.map Event.name =
        library.events.events.map Event.name := by
      rw [events_apply, List.map_map]
      exact List.map_congr_left fun event _ => record.name_onEvent event
    rw [Bool.eq_iff_iff, EventTable.contains_iff, EventTable.contains_iff, names]

theorem hasMethod_eq (library : Library) (className method : String) :
    library.hasMethod className method =
      (library.methodNames? className).any (·.any fun name => name = method) := by
  rw [hasMethod, methodNames?]
  cases library.page? className with
  | none => rfl
  | some page =>
    rw [Option.map_some, Option.any_some, Option.any_some, List.any_map]
    rfl

theorem page?_isSome (library : Library) (className : String) :
    (library.page? className).isSome = (library.methodNames? className).isSome :=
  Option.isSome_map.symm

theorem map_name_page? (library : Library) (className : String) :
    (library.page? className).map ClassPage.name =
      if (library.page? className).isSome then some className else none := by
  cases found : library.page? className with
  | none => rfl
  | some page => exact congrArg some (page?_eq_some_iff.mp found).2

theorem name_pageMeant?_eq (library : Library) (beginnings : List String) (name : String) :
    (library.pageMeant? beginnings name).map ClassPage.name =
      (name :: beginnings.map (· ++ name)).find? fun className =>
        (library.methodNames? className).isSome := by
  rw [pageMeant?_eq, List.map_findSome?]
  induction name :: beginnings.map (· ++ name) with
  | nil => rfl
  | cons first later ih =>
    rw [List.findSome?_cons, List.find?_cons, Function.comp_apply, map_name_page?, page?_isSome, ih]
    cases (library.methodNames? first).isSome <;> rfl

namespace SameOutline

variable {left right : Library}

theorem openFunction (same : left.SameOutline right) :
    left.openFunction = right.openFunction := by
  funext before behind place
  simp only [Library.openFunction, name_pageMeant?_eq, hasMethod_eq, same.methodNames]

theorem openFunctions (same : left.SameOutline right) (place : SourcePlace) (line : List Token) :
    left.openFunctions place line = right.openFunctions place line := by
  induction line generalizing place with
  | nil => rfl
  | cons first rest ih =>
    match rest with
    | [] | [_] => rfl
    | second :: third :: following =>
      rw [Library.openFunctions, Library.openFunctions, same.openFunction, ih]

theorem eventUse? (same : left.SameOutline right) (line : List Token) :
    ApiReference.eventUse? left.events line = ApiReference.eventUse? right.events line := by
  have used : ∀ function : EventFunction,
      function.eventIn? left.events line = function.eventIn? right.events line := by
    intro function
    rw [EventFunction.eventIn?, EventFunction.eventIn?, same.known]
  simp only [ApiReference.eventUse?, used]

end SameOutline

/-! ## The records of an implementation -/

/-- The exception that a line has recorded with the function that is open before it. -/
def raisedOn (place : SourcePlace) (line : List Token) : List SourceRecord :=
  if line.head?.any (·.kind = .pound) then []
  else if Token.hasKind .semicolon line then
    match place.currentFunction?, notifiedException? line with
    | some (className, method), some exception => [.raises className method exception]
    | _, _ => []
  else []

/-- The use of an event that a line has recorded. -/
def usedOn (library : Library) (home : String) (line : List Token) : List SourceRecord :=
  match eventUse? library.events line with
  | some (event, role) => [.uses home event role]
  | none => []

/-- Where in the source one is behind a line. -/
def placeBehind (library : Library) (place : SourcePlace) (line : List Token) : SourcePlace :=
  if line.head?.any (·.kind = .pound) then place
  else if Token.hasKind .semicolon line then place
  else library.openFunctions place line

/-- What lines have recorded that are read from a place on. -/
def recordsFrom (library : Library) (home : String) (place : SourcePlace) :
    List (List Token) → List SourceRecord
  | [] => []
  | line :: later =>
    library.usedOn home line ++ raisedOn place line ++
      library.recordsFrom home (library.placeBehind place line) later

theorem recordsFrom_append (library : Library) (home : String) (place : SourcePlace)
    (earlier later : List (List Token)) :
    library.recordsFrom home place (earlier ++ later) =
      library.recordsFrom home place earlier ++
        library.recordsFrom home (earlier.foldl library.placeBehind place) later := by
  induction earlier generalizing place with
  | nil => rfl
  | cons line between ih =>
    rw [List.cons_append, recordsFrom, recordsFrom, ih, List.foldl_cons, ← List.append_assoc]

/-- What the implementation of a class has recorded. -/
def sourceRecords (library : Library) (className : String) (lines : List String) :
    List SourceRecord :=
  match library.page? className with
  | none => []
  | some _ => library.recordsFrom className ⟨className, none⟩ (lines.map tokenize)

namespace SameOutline

variable {left right : Library}

theorem placeBehind (same : left.SameOutline right) (place : SourcePlace) (line : List Token) :
    left.placeBehind place line = right.placeBehind place line := by
  rw [Library.placeBehind, Library.placeBehind, same.openFunctions]

theorem usedOn (same : left.SameOutline right) (home : String) (line : List Token) :
    left.usedOn home line = right.usedOn home line := by
  rw [Library.usedOn, Library.usedOn, same.eventUse?]

theorem recordsFrom (same : left.SameOutline right) (home : String) (place : SourcePlace)
    (lines : List (List Token)) :
    left.recordsFrom home place lines = right.recordsFrom home place lines := by
  induction lines generalizing place with
  | nil => rfl
  | cons line later ih =>
    rw [Library.recordsFrom, Library.recordsFrom, same.usedOn, same.placeBehind, ih]

theorem sourceRecords (same : left.SameOutline right) (className : String) (lines : List String) :
    left.sourceRecords className lines = right.sourceRecords className lines := by
  have known := congrFun same.methodNames className
  unfold Library.methodNames? at known
  unfold Library.sourceRecords
  cases inLeft : left.page? className with
  | none =>
    cases inRight : right.page? className with
    | none => rfl
    | some page => simp [inLeft, inRight] at known
  | some page =>
    cases inRight : right.page? className with
    | none => simp [inLeft, inRight] at known
    | some other => exact same.recordsFrom className _ _

end SameOutline

theorem sameOutline_foldl_apply (records : List SourceRecord) (library : Library) :
    (records.foldl SourceRecord.apply library).SameOutline library :=
  List.foldlRecOn records SourceRecord.apply (.refl library)
    fun later kept record _ => (sameOutline_apply later record).trans kept

theorem uses_notMem_raisedOn (place : SourcePlace) (line : List Token) (className event : String)
    (role : EventRole) : SourceRecord.uses className event role ∉ raisedOn place line := by
  unfold raisedOn
  split
  · exact List.not_mem_nil
  · split
    · split
      · simp
      · exact List.not_mem_nil
    · exact List.not_mem_nil

theorem uses_mem_usedOn_iff {home className event : String} {role : EventRole}
    {line : List Token} :
    SourceRecord.uses className event role ∈ library.usedOn home line ↔
      home = className ∧ eventUse? library.events line = some (event, role) := by
  unfold usedOn
  cases eventUse? library.events line with
  | none => simp
  | some use => simp [Prod.ext_iff, eq_comm]

theorem uses_mem_recordsFrom_iff {home className event : String} {role : EventRole}
    {place : SourcePlace} {lines : List (List Token)} :
    SourceRecord.uses className event role ∈ library.recordsFrom home place lines ↔
      home = className ∧
        ∃ line ∈ lines, eventUse? library.events line = some (event, role) := by
  induction lines generalizing place with
  | nil => simp [recordsFrom]
  | cons line later ih =>
    simp only [recordsFrom, List.mem_append, uses_mem_usedOn_iff, uses_notMem_raisedOn, or_false, ih,
      List.exists_mem_cons_iff, and_or_left]

/-- An implementation has a use of an event recorded exactly if one of its lines uses it. -/
theorem uses_mem_sourceRecords_iff {owner className event : String} {role : EventRole}
    {lines : List String} :
    SourceRecord.uses className event role ∈ library.sourceRecords owner lines ↔
      owner = className ∧ (library.page? owner).isSome = true ∧
        ∃ line ∈ lines, eventUse? library.events (tokenize line) = some (event, role) := by
  unfold sourceRecords
  cases library.page? owner with
  | none => simp
  | some page => simp [uses_mem_recordsFrom_iff]

/-! ## Scanning is recording -/

theorem useEvent_eq (home : String) (line : List Token) (scan : SourceScan) :
    (scan.useEvent home line).library =
        (scan.library.usedOn home line).foldl SourceRecord.apply scan.library ∧
      (scan.useEvent home line).place = scan.place := by
  unfold SourceScan.useEvent usedOn
  cases eventUse? scan.library.events line with
  | none => exact ⟨rfl, rfl⟩
  | some use => exact ⟨rfl, rfl⟩

theorem followFunctions_eq (line : List Token) (scan : SourceScan) :
    (scan.followFunctions line).library =
        (raisedOn scan.place line).foldl SourceRecord.apply scan.library ∧
      (scan.followFunctions line).place = scan.library.placeBehind scan.place line := by
  unfold SourceScan.followFunctions raisedOn placeBehind
  split
  · exact ⟨rfl, rfl⟩
  · split
    · unfold SourceScan.notify
      cases scan.place.currentFunction? with
      | none => exact ⟨rfl, rfl⟩
      | some function =>
        cases notifiedException? line with
        | none => exact ⟨rfl, rfl⟩
        | some exception => exact ⟨rfl, rfl⟩
    · exact ⟨rfl, rfl⟩

/-- Reading a line makes the records of the line. -/
theorem readLine_eq (home : String) (scan : SourceScan) (line : List Token) :
    (scan.readLine home line).library =
        (scan.library.usedOn home line ++ raisedOn scan.place line).foldl SourceRecord.apply
          scan.library ∧
      (scan.readLine home line).place = scan.library.placeBehind scan.place line := by
  obtain ⟨used, stays⟩ := useEvent_eq home line scan
  obtain ⟨raised, moves⟩ := followFunctions_eq line (scan.useEvent home line)
  unfold SourceScan.readLine
  rw [raised, moves, stays, used, List.foldl_append]
  exact ⟨rfl, (sameOutline_foldl_apply _ scan.library).placeBehind scan.place line⟩

theorem sameOutline_readLine (home : String) (scan : SourceScan) (line : List Token) :
    (scan.readLine home line).library.SameOutline scan.library := by
  rw [(readLine_eq home scan line).1]
  exact sameOutline_foldl_apply _ scan.library

theorem foldl_readLine_eq (home : String) (lines : List (List Token)) (scan : SourceScan) :
    (lines.foldl (SourceScan.readLine home) scan).library =
      (scan.library.recordsFrom home scan.place lines).foldl SourceRecord.apply scan.library := by
  induction lines generalizing scan with
  | nil => rfl
  | cons line later ih =>
    obtain ⟨read, moved⟩ := readLine_eq home scan line
    -- the later lines are read by an outline that the records of this one keep
    have same := sameOutline_readLine home scan line
    rw [List.foldl_cons, ih, same.recordsFrom, moved, read, ← List.foldl_append]
    rfl

/-- Where in the source one is behind lines follows from the library from which the scan starts. -/
theorem place_foldl_readLine (home : String) (lines : List (List Token)) (scan : SourceScan) :
    (lines.foldl (SourceScan.readLine home) scan).place =
      lines.foldl scan.library.placeBehind scan.place := by
  induction lines generalizing scan with
  | nil => rfl
  | cons line later ih =>
    obtain ⟨read, moved⟩ := readLine_eq home scan line
    have same := sameOutline_readLine home scan line
    have samePlaces : (scan.readLine home line).library.placeBehind = scan.library.placeBehind := by
      funext place next
      exact same.placeBehind place next
    rw [List.foldl_cons, List.foldl_cons, ih, moved, samePlaces]

/-- To scan an implementation is to make the records of its lines, as they are by the library from
which the scan starts. -/
theorem library_scanSource (library : Library) (className : String) (lines : List String) :
    (library.scanSource className lines).library =
      (library.sourceRecords className lines).foldl SourceRecord.apply library := by
  rw [scanSource_eq, sourceRecords]
  cases library.page? className with
  | none => rfl
  | some page => exact foldl_readLine_eq className _ _

end Library

end ApiReference
