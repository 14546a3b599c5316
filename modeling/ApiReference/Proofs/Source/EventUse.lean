import ApiReference.Proofs.Event.Agreement
import ApiReference.Proofs.Source.Held
import ApiReference.Proofs.Text.NameOrder

/-!
# Events found in source lines

Whatever lines are read, an implementation is scanned by recording uses of known events by its own
class, and exceptions (`scanSource_induction`).  A use is recorded on both sides, with the class and
with the event, and an exception touches neither, so that what the library tells about events stays
in agreement (`EventsAgree.scanSource`).  The header of a class adds to one side only, which is what
the agreement allows for (`EventsAgree.scanHeader`).
-/

set_option autoImplicit false

namespace ApiReference

/-- What the page of a class tells about events. -/
def ClassPage.eventUse (page : ClassPage) : EventUse :=
  ⟨page.name, page.eventsSent, page.eventsListened⟩

theorem contains_of_eventUse? {known : EventTable} {line : List Token} {event : String}
    {role : EventRole} (use : eventUse? known line = some (event, role)) :
    known.contains event = true := by
  obtain ⟨function, -, applies⟩ := List.exists_of_findSome?_eq_some use
  obtain ⟨event', found, same⟩ := Option.map_eq_some_iff.mp applies
  obtain rfl := congrArg Prod.fst same
  unfold EventFunction.eventIn? at found
  split at found
  · exact (Option.filter_eq_some_iff.mp found).2
  · cases found

namespace Library

variable {library : Library} {className : String} {change : ClassPage → ClassPage}
  {declared : String → String → Prop}

/-! ## What the pages tell -/

/-- What the classes of a library do with events, as their pages tell. -/
def eventUses (library : Library) : List EventUse :=
  library.pages.map ClassPage.eventUse

theorem map_className_eventUses (library : Library) :
    library.eventUses.map EventUse.className = library.pages.map ClassPage.name := by
  rw [eventUses, List.map_map]
  rfl

/-- A change of one page does to what is told what it does to the page. -/
theorem eventUses_modify {effect : EventUse → EventUse}
    (keeps : IndexedList.KeepsName ClassPage.name change)
    (here : ∀ page : ClassPage, page.name = className →
      (change page).eventUse = effect page.eventUse)
    (elsewhere : ∀ use : EventUse, use.className ≠ className → effect use = use) :
    (library.modify className change keeps).eventUses = library.eventUses.map effect := by
  rw [eventUses, eventUses, pages_modify, List.map_map, List.map_map]
  refine List.map_congr_left fun page _ => ?_
  rw [Function.comp_apply, Function.comp_apply]
  split
  · exact here page ‹_›
  · exact (elsewhere page.eventUse ‹_›).symm

/-- What the pages tell and what the table of events tells agree, up to the events that a class is
said to declare. -/
def EventsAgree (declared : String → String → Prop) (library : Library) : Prop :=
  AgreesOnEvents declared library.eventUses library.events.events

/-! ## Recording -/

theorem names_recordEvent (library : Library) (className event : String) (role : EventRole) :
    (library.recordEvent className event role).pages.map ClassPage.name =
      library.pages.map ClassPage.name :=
  names_modify library className _ (ClassPage.name_recordUse event role)

theorem events_recordEvent (library : Library) (className event : String) (role : EventRole) :
    (library.recordEvent className event role).events.events =
      library.events.events.map (EventTable.recordAt event className role) :=
  library.events.events_record event className role

theorem eventUses_recordEvent (library : Library) (className event : String) (role : EventRole) :
    (library.recordEvent className event role).eventUses =
      library.eventUses.map (EventUse.recordAt className event role) := by
  refine eventUses_modify (ClassPage.name_recordUse event role) (fun page sameName => ?_)
    fun use different => if_neg different
  unfold EventUse.recordAt
  rw [if_pos (show page.eventUse.className = className from sameName)]
  cases role <;> rfl

theorem EventsAgree.recordEvent (agree : library.EventsAgree declared)
    (isClass : className ∈ library.pages.map ClassPage.name) {event : String}
    (isKnown : library.events.contains event = true) (role : EventRole) :
    (library.recordEvent className event role).EventsAgree declared := by
  rw [EventsAgree, eventUses_recordEvent, events_recordEvent]
  exact AgreesOnEvents.record agree (library.map_className_eventUses ▸ isClass)
    (EventTable.contains_iff.mp isKnown) role

theorem eventUses_recordException (library : Library) (className method : String)
    (exception : RaisedException) :
    (library.recordException className method exception).1.eventUses = library.eventUses := by
  exact map_pages_modify (ClassPage.name_addException method exception) fun _ => rfl

/-! ## Scanning an implementation -/

/-- What the recording of a known event for the class itself and of exceptions keep, every line
keeps. -/
theorem readLine_induction {motive : Library → Prop}
    (event : ∀ library event role, library.events.contains event = true → motive library →
      motive (library.recordEvent className event role))
    (exception : ∀ library other method exception, motive library →
      motive (library.recordException other method exception).1)
    {scan : SourceScan} (start : motive scan.library) (line : List Token) :
    motive (scan.readLine className line).library := by
  have used : motive (scan.useEvent className line).library := by
    unfold SourceScan.useEvent
    split
    · exact start
    · exact event _ _ _ (contains_of_eventUse? ‹_›) start
  unfold SourceScan.readLine
  generalize scan.useEvent className line = next at used ⊢
  unfold SourceScan.followFunctions
  split
  · exact used
  · split
    · unfold SourceScan.notify
      split
      · exact exception _ _ _ _ used
      · exact used
    · exact used

/-- What the recording of a known event for the class itself and of exceptions keep, the scan of an
implementation keeps. -/
theorem scanSource_induction {motive : Library → Prop}
    (event : ∀ library event role, library.events.contains event = true → motive library →
      motive (library.recordEvent className event role))
    (exception : ∀ library other method exception, motive library →
      motive (library.recordException other method exception).1)
    (start : motive library) (lines : List String) :
    motive (library.scanSource className lines).library := by
  rw [scanSource_eq]
  split
  · exact start
  · refine List.foldlRecOn (motive := fun scan : SourceScan => motive scan.library) _ _ ?_ ?_
    · exact start
    · exact fun _ kept line _ => readLine_induction event exception kept line

theorem EventsAgree.scanSource (agree : library.EventsAgree declared) (className : String)
    (lines : List String) : (library.scanSource className lines).library.EventsAgree declared := by
  cases known : library.page? className with
  | none =>
    rw [scanSource_eq, known]
    exact agree
  | some page =>
    have isClass : className ∈ library.pages.map ClassPage.name := by
      obtain ⟨member, rfl⟩ := page?_eq_some_iff.mp known
      exact List.mem_map_of_mem member
    refine (scanSource_induction (motive := fun library =>
      className ∈ library.pages.map ClassPage.name ∧ library.EventsAgree declared)
      ?event ?exception ⟨isClass, agree⟩ lines).2
    case event =>
      rintro library event role isKnown ⟨isClass, agree⟩
      exact ⟨library.names_recordEvent className event role ▸ isClass,
        agree.recordEvent isClass isKnown role⟩
    case exception =>
      rintro library other method exception ⟨isClass, agree⟩
      have sameUses := library.eventUses_recordException other method exception
      refine ⟨?_, ?_⟩
      · rw [← map_className_eventUses] at isClass ⊢
        rwa [sameUses]
      · rw [EventsAgree, sameUses]
        exact agree

/-! ## Scanning a header -/

theorem EventsAgree.scanHeader (agree : library.EventsAgree declared) (className : String)
    (lines : List String) :
    (library.scanHeader className lines).1.EventsAgree fun user event =>
      declared user event ∨ user = className ∧ event ∈ declaredEvents lines := by
  rw [scanHeader_atOnce]
  cases known : library.page? className with
  | none => exact AgreesOnEvents.mono agree fun _ _ => Or.inl
  | some page =>
    have keeps := ClassPage.name_declareEvents (declaredEvents lines)
    have uses : (library.modify className _ keeps).eventUses =
        library.eventUses.map (EventUse.declareAt className (declaredEvents lines)) := by
      refine eventUses_modify keeps (fun page sameName => ?_) fun use different => if_neg different
      unfold EventUse.declareAt
      rw [if_pos (show page.eventUse.className = className from sameName)]
      rfl
    have declaring := AgreesOnEvents.declare agree className (declaredEvents lines)
    rw [← uses] at declaring
    exact declaring

/-! ## Putting in order -/

theorem eventUses_sort_perm (library : Library) :
    library.sort.eventUses.Perm library.eventUses := by
  have sameUses : (library.mapPages ClassPage.sort ClassPage.name_sort).eventUses =
      library.eventUses :=
    map_pages_mapPages ClassPage.name_sort fun _ => rfl
  exact sameUses ▸ (sortByName_perm ClassPage.name _).map ClassPage.eventUse

theorem EventsAgree.sort (agree : library.EventsAgree declared) :
    library.sort.EventsAgree declared := by
  refine AgreesOnEvents.reorder agree ?_ EventUse.Alike.refl ?_ Event.Alike.refl
  · rw [List.map_id']
    exact library.eventUses_sort_perm
  · rw [List.map_id']
    exact List.Perm.refl _

theorem eventUses_pruneEvents (library : Library) :
    library.pruneEvents.eventUses = library.eventUses.map EventUse.prune := by
  rw [eventUses, eventUses, List.map_map]
  exact List.map_map

theorem EventsAgree.pruneEvents (agree : library.EventsAgree declared) :
    library.pruneEvents.EventsAgree declared := by
  refine AgreesOnEvents.reorder agree ?_ EventUse.alike_prune ?_ Event.alike_prune
  · rw [eventUses_pruneEvents]
  · exact sortByName_perm Event.name _

end Library

end ApiReference
