import ApiReference.Build
import ApiReference.Proofs.Library.Comments
import ApiReference.Proofs.Library.Filling
import ApiReference.Proofs.Source.Steps

/-!
# The events of a build

A build scans the sources of its classes in a library in which no use of an event is known
(`DocumentSet.unused_described`), and all it does with events afterwards are steps of scanning and
ordering (`DocumentSet.completeLibrary_eq_after`).  So the lists of events that are published with
the classes agree with the classes that are published with the events, and publishing orders them
all strictly (`eventsAgree_after_and_build`).
-/

set_option autoImplicit false

namespace ApiReference

/-! ## Until the sources are scanned -/

theorem ClassPage.eventUse_addProperty (page : ClassPage) (property : Property) :
    (page.addProperty property).eventUse = page.eventUse := by
  unfold addProperty
  split <;> rfl

/-- A listed class is read without its source, and so without events. -/
theorem ListedClass.eventUse_toPage (listed : ListedClass) :
    listed.toPage.eventUse = ⟨listed.name, [], []⟩ := by
  unfold toPage
  refine List.foldlRecOn (motive := fun page : ClassPage => page.eventUse = ⟨listed.name, [], []⟩)
    _ _ ?_ fun page kept property _ => (page.eventUse_addProperty property).trans kept
  exact List.foldlRecOn
    (motive := fun page : ClassPage => page.eventUse = ⟨listed.name, [], []⟩) _ _ rfl
    fun _ kept _ _ => kept

namespace Library

variable {library : Library}

theorem unused_ofNames (names : List String) : (ofEvents (.ofNames names)).Unused where
  pages := List.forall_mem_nil _
  events event member := by
    rcases EventTable.mem_events_addAll.mp member with old | ⟨blank, -, -⟩
    · cases old
    · rw [blank]
      exact ⟨rfl, rfl⟩

theorem Unused.addPage {page : ClassPage} (unused : library.Unused)
    (noEvents : page.eventsSent = [] ∧ page.eventsListened = []) :
    (library.addPage page).Unused := by
  refine ⟨fun other member => ?_, unused.events⟩
  rw [pages_addPage] at member
  split at member
  · exact unused.pages other member
  · rcases List.mem_append.mp member with old | new
    · exact unused.pages other old
    · exact List.mem_singleton.mp new ▸ noEvents

theorem Unused.addPages {pages : List ClassPage} (unused : library.Unused)
    (noEvents : ∀ page ∈ pages, page.eventsSent = [] ∧ page.eventsListened = []) :
    (library.addPages pages).1.Unused := by
  induction pages generalizing library with
  | nil => exact unused
  | cons page later ih =>
    obtain ⟨noneHere, noneLater⟩ := List.forall_mem_cons.mp noEvents
    exact ih (unused.addPage noneHere) noneLater

theorem Unused.normalize (unused : library.Unused) (expanded : ExpandedTable) :
    (library.normalize expanded).Unused :=
  unused.of_eventUses_eq (map_pages_mapPages (ClassPage.name_normalize expanded) fun _ => rfl) rfl

theorem Unused.addComment (unused : library.Unused) (className : String) (comment : Method)
    (expanded : ExpandedTable) : (library.addComment className comment expanded).1.Unused := by
  rcases library.addComment_eq_or_eq_setMethods className comment expanded with same | changed
  · rw [same]
    exact unused
  · obtain ⟨methods, result⟩ := changed
    rw [result]
    exact unused.of_eventUses_eq (library.map_pages_setMethods _ _ fun _ => rfl) rfl

theorem Unused.addComments (unused : library.Unused) (expanded : ExpandedTable)
    (comments : List ListedComment) : (library.addComments expanded comments).1.Unused := by
  induction comments generalizing library with
  | nil => exact unused
  | cons comment later ih => exact ih (unused.addComment _ _ _)

theorem Unused.fillDescriptions (unused : library.Unused) : library.fillDescriptions.Unused := by
  rw [fillDescriptions_eq]
  exact unused.of_eventUses_eq (map_pages_mapPages library.name_fillPage fun _ => rfl) rfl

end Library

namespace DocumentSet

/-- The library of a build before any source is scanned. -/
def described (documents : DocumentSet) (expanded : ExpandedTable) : Library :=
  ((documents.library.1.normalize expanded).addComments expanded
    documents.comments).1.fillDescriptions

theorem unused_library (documents : DocumentSet) : documents.library.1.Unused := by
  have noEvents : ∀ page ∈ documents.classes.map ListedClass.toPage,
      page.eventsSent = [] ∧ page.eventsListened = [] := by
    refine List.forall_mem_map.mpr fun listed _ => ?_
    have use := listed.eventUse_toPage
    exact ⟨congrArg EventUse.sent use, congrArg EventUse.listened use⟩
  have filled := (Library.unused_ofNames documents.events).addPages noEvents
  exact ⟨filled.pages, filled.events⟩

theorem unused_described (documents : DocumentSet) (expanded : ExpandedTable) :
    (documents.described expanded).Unused :=
  ((documents.unused_library.normalize expanded).addComments expanded _).fillDescriptions

end DocumentSet

/-! ## The steps of a build -/

namespace Library

theorem scanHeaders_eq_after (library : Library) (classes : List ListedClass) :
    library.scanHeaders classes =
      library.after (classes.map fun listed => .header listed.name listed.headerLines) := by
  rw [after, List.foldl_map]
  rfl

theorem scanSources_eq_after (library : Library) (classes : List ListedClass) :
    library.scanSources classes =
      library.after (classes.map fun listed => .implementation listed.name listed.sourceLines) := by
  rw [after, List.foldl_map]
  rfl

end Library

namespace DocumentSet

/-- The steps that a build takes: the headers, the implementations, and putting in order. -/
def sourceSteps (documents : DocumentSet) : List SourceStep :=
  let scanned := firstOfEachName documents.classes
  (scanned.map fun listed => .header listed.name listed.headerLines) ++
    (scanned.map fun listed => .implementation listed.name listed.sourceLines) ++ [.prune, .sort]

/-- A line of a header that is scanned declares the event for the class. -/
def Declares (documents : DocumentSet) (className event : String) : Prop :=
  ∃ listed ∈ firstOfEachName documents.classes,
    listed.name = className ∧ event ∈ declaredEvents listed.headerLines

/-- What the steps of a build declare is what the headers of its classes declare. -/
theorem declares_of_mem_sourceSteps {documents : DocumentSet} {step : SourceStep}
    {className event : String} (member : step ∈ documents.sourceSteps)
    (declares : step.Declares className event) : documents.Declares className event := by
  rcases List.mem_append.mp member with scans | orders
  · rcases List.mem_append.mp scans with isHeader | isImplementation
    · obtain ⟨listed, isScanned, rfl⟩ := List.mem_map.mp isHeader
      exact ⟨listed, isScanned, declares⟩
    · obtain ⟨listed, -, rfl⟩ := List.mem_map.mp isImplementation
      exact declares.elim
  · rcases List.mem_pair.mp orders with rfl | rfl
    · exact declares.elim
    · exact declares.elim

/-- Scanning and ordering is all that a build does to what is known of events. -/
theorem completeLibrary_eq_after (documents : DocumentSet) (expanded : ExpandedTable) :
    (documents.completeLibrary expanded).1 =
      (documents.described expanded).after documents.sourceSteps := by
  rw [sourceSteps, Library.after_append, Library.after_append, ← Library.scanHeaders_eq_after,
    ← Library.scanSources_eq_after]
  rfl

theorem eventsAgree_completeLibrary (documents : DocumentSet) (expanded : ExpandedTable) :
    (documents.completeLibrary expanded).1.EventsAgree documents.Declares := by
  rw [completeLibrary_eq_after]
  refine AgreesOnEvents.mono ((documents.unused_described expanded).eventsAgree_after _) ?_
  rintro className event ⟨step, member, declares⟩
  exact declares_of_mem_sourceSteps member declares

end DocumentSet

/-! ## Publishing -/

/-- What a published class tells about events. -/
def PublishedClass.eventUse (page : PublishedClass) : EventUse :=
  ⟨page.name, page.eventsSent, page.eventsListened⟩

namespace PublishedLibrary

/-- The published lists of events and those of the classes that use them agree, up to the events
that a class is said to declare. -/
def EventsAgree (declared : String → String → Prop) (library : PublishedLibrary) : Prop :=
  AgreesOnEvents declared (library.classes.map PublishedClass.eventUse) library.events

/-- The events and all that is published about them are in strict order. -/
structure EventsOrdered (library : PublishedLibrary) : Prop where
  names : (library.events.map Event.name).Pairwise (· < ·)
  senders : ∀ event ∈ library.events, event.senders.Pairwise (· < ·)
  listeners : ∀ event ∈ library.events, event.listeners.Pairwise (· < ·)
  sent : ∀ page ∈ library.classes, page.eventsSent.Pairwise (· < ·)
  listened : ∀ page ∈ library.classes, page.eventsListened.Pairwise (· < ·)

end PublishedLibrary

namespace Library

variable {library : Library} {declared : String → String → Prop}

theorem EventsAgree.publish (agree : library.EventsAgree declared) :
    library.publish.EventsAgree declared := by
  refine AgreesOnEvents.reorder agree ?_ EventUse.alike_prune ?_ Event.Alike.refl
  · refine ((sortByName_perm _ _).map PublishedClass.eventUse).trans ?_
    rw [eventUses, List.map_map, List.map_map]
    exact List.Perm.refl _
  · rw [List.map_id']
    exact sortByName_perm Event.name _

/-- Pruned events are published in strict order. -/
theorem eventsOrdered_publish
    (pruned : ∀ event ∈ library.events.events, ∃ earlier : Event, event = earlier.prune) :
    library.publish.EventsOrdered where
  names := pairwise_sortByName Event.name _ library.events.names_nodup
  senders event member := by
    obtain ⟨earlier, rfl⟩ := pruned event (mem_sortByName Event.name _ |>.mp member)
    exact pairwise_sortedNames earlier.senders
  listeners event member := by
    obtain ⟨earlier, rfl⟩ := pruned event (mem_sortByName Event.name _ |>.mp member)
    exact pairwise_sortedNames earlier.listeners
  sent page member := by
    obtain ⟨earlier, -, rfl⟩ := List.mem_map.mp (mem_sortByName PublishedClass.name _ |>.mp member)
    exact pairwise_sortedNames earlier.eventsSent
  listened page member := by
    obtain ⟨earlier, -, rfl⟩ := List.mem_map.mp (mem_sortByName PublishedClass.name _ |>.mp member)
    exact pairwise_sortedNames earlier.eventsListened

theorem exists_prune_of_mem_pruneEvents {event : Event}
    (member : event ∈ library.pruneEvents.sort.events.events) :
    ∃ earlier : Event, event = earlier.prune := by
  obtain ⟨earlier, -, same⟩ := List.mem_map.mp (mem_sortByName Event.name _ |>.mp member)
  exact ⟨earlier, same.symm⟩

end Library

/-! ## The result -/

/-- However a library in which no use of events is known is scanned and put in order, its classes
and its events tell the same of who listens to what, and of who sends what they differ only by the
events that a scanned header declares.  The same holds of every published build, which moreover
lists everything about events in strict order. -/
theorem eventsAgree_after_and_build :
    (∀ (library : Library) (steps : List SourceStep), library.Unused →
      (library.after steps).EventsAgree fun className event =>
        ∃ step ∈ steps, step.Declares className event) ∧
    ∀ (documents : DocumentSet) (input : BuildInput),
      (documents.build input).published.EventsAgree documents.Declares ∧
        (documents.build input).published.EventsOrdered := by
  refine ⟨fun library steps unused => unused.eventsAgree_after steps, fun documents input => ?_⟩
  exact ⟨(documents.eventsAgree_completeLibrary _).publish,
    Library.eventsOrdered_publish fun _ => Library.exists_prune_of_mem_pruneEvents⟩

/-- A door connects to an event that becomes known only once its header has declared it.  After
that the event has the door as a listener, but not as a sender. -/
theorem eventsAgree_after_and_build_door :
    let library := (Library.ofEvents .empty).addPage (.ofName "Door")
    let lines := ["Connect(Owner, Locked, OnLocked);"]
    let steps : List SourceStep :=
      [.implementation "Door" lines, .sort, .header "Door" ["  Event(Events::Locked);"],
        .implementation "Door" lines, .prune]
    library.Unused ∧
      (library.after steps).eventUses = [⟨"Door", ["Locked"], ["Locked"]⟩] ∧
      (library.after steps).events.events = [⟨"Locked", [], ["Door"]⟩] ∧
      (library.after steps).EventsAgree fun className event =>
        ∃ step ∈ steps, step.Declares className event := by
  intro library lines steps
  have unused : library.Unused := ⟨by decide +kernel, by decide +kernel⟩
  exact ⟨unused, by decide +kernel, by decide +kernel,
    eventsAgree_after_and_build.1 library steps unused⟩

end ApiReference
