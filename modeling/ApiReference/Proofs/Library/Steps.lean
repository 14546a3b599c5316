import ApiReference.Proofs.Library.Comments
import ApiReference.Proofs.Library.Filling
import ApiReference.Proofs.Source.Records
import ApiReference.Proofs.Source.Steps

/-!
# What a library keeps through all steps

A library is made from a table of events by adding classes and by all that later phases do to it: it
is normalized, comments are added, descriptions are filled in, sources are scanned, and everything
is pruned and sorted, in any order and any number of times.

A page is found by a name exactly if a class of the name was added before, and it still has the
heading of the first of these (`heading?_evolve`).  For events it is said what one step adds
(`contains_apply_iff`, `mem_users_apply_iff`), and steps taken one after the other add what each of
them adds (`evolve_iff`).  Nothing is lost on the way, and what was added is found where it stands,
also by the scans that hold positions (`exactAfter_evolve`).
-/

set_option autoImplicit false

namespace ApiReference

/-! ## Headings -/

/-- What a class is declared with beside its members. -/
structure ClassHeading where
  name : String
  base? : Option String
  scope : Scope
  description : String
deriving DecidableEq, Repr

/-- The heading of a page. -/
def ClassPage.heading (page : ClassPage) : ClassHeading :=
  ⟨page.name, page.base?, page.scope, page.description⟩

/-- The classes that use an event in a role. -/
def Event.users (role : EventRole) (event : Event) : List String :=
  match role with
  | .sends => event.senders
  | .listens => event.listeners

/-- The classes that use the event of a name in a role; none if the event is not known. -/
def EventTable.users (table : EventTable) (name : String) (role : EventRole) : List String :=
  ((table.find? name).map (Event.users role)).getD []

/-! ## Steps -/

/-- A step by which a library is filled, or learns what is said elsewhere. -/
inductive LibraryStep where
  | addPage (page : ClassPage)
  | normalize (expanded : ExpandedTable)
  | addComment (className : String) (comment : Method) (expanded : ExpandedTable)
  | fillDescriptions
  | source (step : SourceStep)

namespace LibraryStep

/-- Take a step. -/
def apply (library : Library) : LibraryStep → Library
  | addPage page => library.addPage page
  | normalize expanded => library.normalize expanded
  | addComment className comment expanded => (library.addComment className comment expanded).1
  | fillDescriptions => library.fillDescriptions
  | source step => step.apply library

/-- The pages that a step adds, if their names are free. -/
def added : LibraryStep → List ClassPage
  | addPage page => [page]
  | normalize _ | addComment _ _ _ | fillDescriptions | source _ => []

/-- A step makes an event known: it reads a header of a class of the library that declares it. -/
def Declares (library : Library) (event : String) : LibraryStep → Prop
  | source (.header owner lines) =>
    (library.page? owner).isSome = true ∧ event ∈ declaredEvents lines
  | source (.implementation _ _) | source .prune | source .sort => False
  | addPage _ | normalize _ | addComment _ _ _ | fillDescriptions => False

/-- A step records that a class uses an event: it reads a line of the class that uses a known
event. -/
def Records (library : Library) (className event : String) (role : EventRole) :
    LibraryStep → Prop
  | source (.implementation owner lines) =>
    owner = className ∧ (library.page? owner).isSome = true ∧
      ∃ line ∈ lines, eventUse? library.events (tokenize line) = some (event, role)
  | source (.header _ _) | source .prune | source .sort => False
  | addPage _ | normalize _ | addComment _ _ _ | fillDescriptions => False

end LibraryStep

namespace EventTable

variable {table : EventTable} {className name : String} {role : EventRole}

theorem mem_users_iff :
    className ∈ table.users name role ↔
      ∃ event ∈ table.events, event.name = name ∧ className ∈ event.users role := by
  unfold users
  cases found : table.find? name with
  | none =>
    have unknown : ∀ event ∈ table.events, event.name ≠ name := by
      simpa [find?_eq] using found
    simp only [Option.map_none, Option.getD_none, List.not_mem_nil, false_iff, not_exists, not_and]
    exact fun event member same => absurd same (unknown event member)
  | some event =>
    obtain ⟨member, sameName⟩ := find?_eq_some_iff.mp found
    rw [Option.map_some, Option.getD_some]
    constructor
    · exact fun user => ⟨event, member, sameName, user⟩
    · rintro ⟨other, inTable, otherName, user⟩
      have isOther := find?_eq_some_iff.mpr ⟨inTable, otherName⟩
      obtain rfl : event = other := Option.some.inj (found.symm.trans isOther)
      exact user

/-- Events that become known have no users yet. -/
theorem mem_users_addAll (table : EventTable) (names : List String) :
    className ∈ (table.addAll names).users name role ↔ className ∈ table.users name role := by
  rw [mem_users_iff, mem_users_iff]
  constructor
  · rintro ⟨event, member, sameName, user⟩
    rcases mem_events_addAll.mp member with old | ⟨blank, -, -⟩
    · exact ⟨event, old, sameName, user⟩
    · rw [blank] at user
      cases role <;> cases user
  · rintro ⟨event, member, known⟩
    exact ⟨event, mem_events_addAll.mpr (Or.inl member), known⟩

theorem mem_users_prune (table : EventTable) :
    className ∈ table.prune.users name role ↔ className ∈ table.users name role := by
  have alike : ∀ event : Event,
      event.prune.name = name ∧ className ∈ event.prune.users role ↔
        event.name = name ∧ className ∈ event.users role := by
    intro event
    refine and_congr_right fun _ => ?_
    cases role with
    | sends => exact mem_sortedNames
    | listens => exact mem_sortedNames
  rw [mem_users_iff, mem_users_iff, events_prune]
  simp only [mem_sortByName, List.mem_map, exists_exists_and_eq_and, alike]

theorem names_prune_perm (table : EventTable) :
    (table.prune.events.map Event.name).Perm (table.events.map Event.name) := by
  rw [events_prune]
  refine ((sortByName_perm Event.name _).map Event.name).trans ?_
  rw [List.map_map]
  exact List.Perm.refl _

end EventTable

namespace Library

variable {library : Library} {name className event : String} {role : EventRole}

/-- The library after some steps. -/
def evolve (library : Library) (steps : List LibraryStep) : Library :=
  steps.foldl LibraryStep.apply library

theorem evolve_append (library : Library) (earlier later : List LibraryStep) :
    library.evolve (earlier ++ later) = (library.evolve earlier).evolve later :=
  List.foldl_append

theorem after_eq_evolve (library : Library) (steps : List SourceStep) :
    library.after steps = library.evolve (steps.map .source) := by
  rw [evolve, List.foldl_map]
  rfl

/-! ## Pages -/

theorem heading?_of_map_eq {other : Library}
    (same : other.pages.map ClassPage.heading = library.pages.map ClassPage.heading) :
    (other.page? name).map ClassPage.heading = (library.page? name).map ClassPage.heading := by
  have found : ∀ either : Library, (either.page? name).map ClassPage.heading =
      (either.pages.map ClassPage.heading).find? (·.name = name) := by
    intro either
    rw [page?_eq, List.find?_map]
    rfl
  rw [found, found, same]

/-- Scanning and ordering keep the heading of a page. -/
theorem heading?_source (library : Library) (step : SourceStep) (name : String) :
    ((step.apply library).page? name).map ClassPage.heading =
      (library.page? name).map ClassPage.heading := by
  cases step with
  | header owner lines =>
    rw [SourceStep.apply, scanHeader_atOnce]
    cases library.page? owner with
    | none => rfl
    | some page =>
      exact heading?_of_map_eq (map_pages_modify (ClassPage.name_declareEvents _) fun _ => rfl)
  | implementation owner lines =>
    refine heading?_of_map_eq ?_
    rw [SourceStep.apply, library_scanSource, pages_foldl_apply, List.map_map]
    refine List.map_congr_left fun page _ => ?_
    rw [Function.comp_apply, foldl_onPage]
    rfl
  | prune =>
    exact heading?_of_map_eq (map_pages_mapPages ClassPage.name_pruneEvents fun _ => rfl)
  | sort =>
    rw [SourceStep.apply, page?_sort, Option.map_map]
    rfl

/-- A step keeps the heading of a page, and adds a page only if there is none of its name. -/
theorem heading?_apply (library : Library) (step : LibraryStep) (name : String) :
    ((step.apply library).page? name).map ClassPage.heading =
      ((library.page? name).or (step.added.find? (·.name = name))).map ClassPage.heading := by
  cases step with
  | addPage page => exact congrArg _ (library.page?_addPage page name)
  | normalize expanded =>
    rw [LibraryStep.added, List.find?_nil, Option.or_none]
    exact heading?_of_map_eq (map_pages_mapPages (ClassPage.name_normalize expanded) fun _ => rfl)
  | addComment className comment expanded =>
    rw [LibraryStep.added, List.find?_nil, Option.or_none]
    refine heading?_of_map_eq ?_
    rcases library.addComment_eq_or_eq_setMethods className comment expanded with
      same | ⟨methods, changed⟩
    · rw [LibraryStep.apply, same]
    · rw [LibraryStep.apply, changed]
      exact library.map_pages_setMethods _ _ fun _ => rfl
  | fillDescriptions =>
    rw [LibraryStep.added, List.find?_nil, Option.or_none]
    refine heading?_of_map_eq ?_
    rw [LibraryStep.apply, pages_fillDescriptions, List.map_map]
    exact List.map_congr_left fun page _ => rfl
  | source step =>
    rw [LibraryStep.added, List.find?_nil, Option.or_none]
    exact library.heading?_source step name

/-- Of the pages that are added, the first one of a name is found, unless one was there, and its
heading stays. -/
theorem heading?_evolve (library : Library) (steps : List LibraryStep) (name : String) :
    ((library.evolve steps).page? name).map ClassPage.heading =
      ((library.page? name).or ((steps.flatMap LibraryStep.added).find? (·.name = name))).map
        ClassPage.heading := by
  induction steps generalizing library with
  | nil => exact congrArg _ Option.or_none.symm
  | cons step later ih =>
    have after : library.evolve (step :: later) = (step.apply library).evolve later := rfl
    rw [after, ih, Option.map_or, heading?_apply, ← Option.map_or, List.flatMap_cons,
      List.find?_append, Option.or_assoc]

/-! ## Events -/

theorem events_addComment (library : Library) (className : String) (comment : Method)
    (expanded : ExpandedTable) :
    (library.addComment className comment expanded).1.events = library.events := by
  rcases library.addComment_eq_or_eq_setMethods className comment expanded with
    same | ⟨methods, changed⟩
  · rw [same]
  · rw [changed]
    rfl

/-- A step makes those events known that it declares. -/
theorem contains_apply_iff (library : Library) (step : LibraryStep) (event : String) :
    (step.apply library).events.contains event = true ↔
      library.events.contains event = true ∨ step.Declares library event := by
  cases step with
  | addPage page => exact (or_false _).symm.to_iff
  | normalize expanded => exact (or_false _).symm.to_iff
  | addComment className comment expanded =>
    rw [LibraryStep.apply, events_addComment, LibraryStep.Declares, or_false]
  | fillDescriptions =>
    rw [LibraryStep.apply, fillDescriptions_eq, LibraryStep.Declares, or_false]
    exact Iff.rfl
  | source step =>
    cases step with
    | header owner lines =>
      rw [LibraryStep.apply, SourceStep.apply, scanHeader_atOnce, LibraryStep.Declares]
      cases library.page? owner with
      | none => simp
      | some page =>
        simp only [EventTable.contains_iff, Option.isSome_some, true_and]
        exact EventTable.mem_names_addAll
    | implementation owner lines =>
      -- what lines have recorded makes no event known
      rw [LibraryStep.apply, SourceStep.apply, library_scanSource,
        (sameOutline_foldl_apply _ library).known, LibraryStep.Declares, or_false]
    | prune =>
      rw [EventTable.contains_iff, EventTable.contains_iff, LibraryStep.Declares, or_false]
      exact (EventTable.names_prune_perm library.events).mem_iff
    | sort => exact (or_false _).symm.to_iff

theorem mem_users_foldl_onEvent {records : List SourceRecord} {known : Event} :
    className ∈ (records.foldl SourceRecord.onEvent known).users role ↔
      className ∈ known.users role ∨ .uses className known.name role ∈ records := by
  rw [foldl_onEvent]
  cases role with
  | sends => simp [Event.users, SourceRecord.userOf?_eq_some_iff]
  | listens => simp [Event.users, SourceRecord.userOf?_eq_some_iff]

/-- An implementation adds the uses that its lines record. -/
theorem mem_users_scanSource (library : Library) (owner : String) (lines : List String) :
    className ∈ (library.scanSource owner lines).library.events.users event role ↔
      className ∈ library.events.users event role ∨
        .uses className event role ∈ library.sourceRecords owner lines := by
  rw [library_scanSource, EventTable.mem_users_iff, EventTable.mem_users_iff, events_foldl_apply]
  simp only [List.mem_map, exists_exists_and_eq_and, name_foldl_onEvent, mem_users_foldl_onEvent]
  constructor
  · rintro ⟨known, member, rfl, old | recorded⟩
    · exact Or.inl ⟨known, member, rfl, old⟩
    · exact Or.inr recorded
  · rintro (⟨known, member, rfl, old⟩ | recorded)
    · exact ⟨known, member, rfl, Or.inl old⟩
    · -- the event that a record names is in the table, for only known events are recorded
      obtain ⟨-, -, line, -, use⟩ := uses_mem_sourceRecords_iff.mp recorded
      obtain ⟨known, member, rfl⟩ :=
        List.mem_map.mp (EventTable.contains_iff.mp (contains_of_eventUse? use))
      exact ⟨known, member, rfl, Or.inr recorded⟩

/-- A step adds those classes to the users of an event that it records with it. -/
theorem mem_users_apply_iff (library : Library) (step : LibraryStep) :
    className ∈ (step.apply library).events.users event role ↔
      className ∈ library.events.users event role ∨ step.Records library className event role := by
  cases step with
  | addPage page => exact (or_false _).symm.to_iff
  | normalize expanded => exact (or_false _).symm.to_iff
  | addComment className comment expanded =>
    rw [LibraryStep.apply, events_addComment, LibraryStep.Records, or_false]
  | fillDescriptions =>
    rw [LibraryStep.apply, fillDescriptions_eq, LibraryStep.Records, or_false]
    exact Iff.rfl
  | source step =>
    cases step with
    | header owner lines =>
      rw [LibraryStep.apply, SourceStep.apply, scanHeader_atOnce, LibraryStep.Records, or_false]
      cases library.page? owner with
      | none => exact Iff.rfl
      | some page => exact EventTable.mem_users_addAll library.events _
    | implementation owner lines =>
      rw [LibraryStep.Records, ← uses_mem_sourceRecords_iff]
      exact library.mem_users_scanSource owner lines
    | prune =>
      rw [LibraryStep.Records, or_false]
      exact EventTable.mem_users_prune library.events
    | sort => exact (or_false _).symm.to_iff

/-! ## All steps -/

/-- Among some steps there is one at which something happens in the library as it is then. -/
def HasStep (library : Library) (steps : List LibraryStep)
    (happens : Library → LibraryStep → Prop) : Prop :=
  ∃ earlier step later, steps = earlier ++ step :: later ∧ happens (library.evolve earlier) step

theorem hasStep_cons_iff {step : LibraryStep} {later : List LibraryStep}
    {happens : Library → LibraryStep → Prop} :
    library.HasStep (step :: later) happens ↔
      happens library step ∨ (step.apply library).HasStep later happens := by
  constructor
  · rintro ⟨earlier, found, behind, split, here⟩
    cases earlier with
    | nil =>
      obtain ⟨rfl, -⟩ := List.cons.inj split
      exact Or.inl here
    | cons first between =>
      obtain ⟨rfl, rest⟩ := List.cons.inj split
      exact Or.inr ⟨between, found, behind, rest, here⟩
  · rintro (here | ⟨earlier, found, behind, rfl, there⟩)
    · exact ⟨[], step, later, rfl, here⟩
    · exact ⟨step :: earlier, found, behind, rfl, there⟩

/-- If a step adds what happens at it and takes nothing away, then so do all steps together. -/
theorem evolve_iff (holds : Library → Prop) {happens : Library → LibraryStep → Prop}
    (each : ∀ library step, holds (step.apply library) ↔ holds library ∨ happens library step)
    (library : Library) (steps : List LibraryStep) :
    holds (library.evolve steps) ↔ holds library ∨ library.HasStep steps happens := by
  induction steps generalizing library with
  | nil =>
    have none : ¬ library.HasStep [] happens := by
      rintro ⟨earlier, step, later, split, -⟩
      simp at split
    exact (or_iff_left none).symm
  | cons step later ih =>
    have after : library.evolve (step :: later) = (step.apply library).evolve later := rfl
    rw [after, ih, each, hasStep_cons_iff, or_assoc]

/-- What is in a library that was made by some steps from a table of events: exactly the classes
that were added, as the first of a name was declared, and exactly the events that were known or
declared, with the classes that were recorded to use them.  Both indices give for a name the
position where the class or the event of that name stands, and no other, and a scan moves nothing,
so that what it holds is right at each of its lines. -/
structure ExactAfter (events : EventTable) (steps : List LibraryStep) (library : Library) :
    Prop where
  distinct : (library.pages.map ClassPage.name).Nodup
  position_iff : ∀ name position, library.position? name = some position ↔
    ∃ page, library.pages[position]? = some page ∧ page.name = name
  isPage_iff : ∀ name, (library.page? name).isSome = true ↔
    name ∈ (steps.flatMap LibraryStep.added).map ClassPage.name
  heading : ∀ name page, library.page? name = some page → page.name = name ∧
    ∃ first, (steps.flatMap LibraryStep.added).find? (·.name = name) = some first ∧
      page.heading = first.heading
  distinctEvents : (library.events.events.map Event.name).Nodup
  eventPosition_iff : ∀ name position, library.events.store.position? name = some position ↔
    ∃ event, library.events.events[position]? = some event ∧ event.name = name
  isEvent_iff : ∀ name, library.events.contains name = true ↔ events.contains name = true ∨
    (ofEvents events).HasStep steps fun before step => step.Declares before name
  named : ∀ name event, library.events.find? name = some event → event.name = name
  uses_iff : ∀ className event role, className ∈ library.events.users event role ↔
    className ∈ events.users event role ∨
      (ofEvents events).HasStep steps fun before step => step.Records before className event role
  sourceMovesNothing : ∀ owner lines,
    (library.scanSource owner lines).library.position? = library.position? ∧
      (library.scanSource owner lines).library.events.store.position? =
        library.events.store.position?
  headerMovesNothing : ∀ owner lines,
    (library.scanHeader owner lines).1.position? = library.position? ∧
      ∀ event position, library.events.store.position? event = some position →
        (library.scanHeader owner lines).1.events.store.position? event = some position

/-- However a library is made from a table of events, it has exactly the classes and the events that
it was given, and finds each where it is. -/
theorem exactAfter_evolve (events : EventTable) (steps : List LibraryStep) :
    ((ofEvents events).evolve steps).ExactAfter events steps := by
  have headings (name : String) : (((ofEvents events).evolve steps).page? name).map _ = _ :=
    heading?_evolve (ofEvents events) steps name
  constructor
  case distinct => exact ((ofEvents events).evolve steps).names_nodup
  case position_iff => exact fun _ _ => position?_eq_some_iff
  case isPage_iff =>
    intro name
    have found := congrArg Option.isSome (headings name)
    rw [Option.isSome_map, Option.isSome_map] at found
    rw [found]
    exact find?_name_isSome_iff
  case heading =>
    intro name page found
    obtain ⟨first, isFirst, same⟩ := Option.map_eq_some_iff.mp
      ((headings name).symm.trans (congrArg _ found))
    exact ⟨(page?_eq_some_iff.mp found).2, first, isFirst, same.symm⟩
  case distinctEvents => exact ((ofEvents events).evolve steps).events.names_nodup
  case eventPosition_iff =>
    exact fun _ _ => ((ofEvents events).evolve steps).events.made.exact.position?_eq_some_iff
  case isEvent_iff =>
    intro name
    exact evolve_iff (fun library => library.events.contains name = true)
      (fun library step => library.contains_apply_iff step name) _ steps
  case named =>
    intro name event found
    exact (EventTable.find?_eq_some_iff.mp found).2
  case uses_iff =>
    intro className event role
    exact evolve_iff (fun library => className ∈ library.events.users event role)
      (fun library step => library.mem_users_apply_iff step) _ steps
  case sourceMovesNothing => exact position?_scanSource _
  case headerMovesNothing => exact position?_scanHeader _

end Library

end ApiReference
