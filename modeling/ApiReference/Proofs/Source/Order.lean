import ApiReference.Proofs.Library.Lookup
import ApiReference.Proofs.Source.Records

/-!
# Scanning classes in any order

What the sources of classes have a library record does not depend on the order of the classes,
except for the order in which it comes.  The headers make events known and add to what a class sends
(`Library.page?_scanHeaders`, `Library.find?_scanHeaders`).  After them nothing changes any more of
what source lines are read by, so that all implementations together make the records that each of
them makes from there (`Library.scanSources_eq`).

`Library.Alike` relates libraries in which the same is recorded in some order.  Scanning leads from
libraries in which the same is found to libraries that are alike (`Library.SameLookup.scan`).
-/

set_option autoImplicit false

namespace ApiReference

/-! ## Likeness -/

namespace ClassPage

/-- The page without its methods and without what it tells about events. -/
def outline (page : ClassPage) : ClassPage :=
  { page with
    methods := []
    eventsSent := []
    eventsListened := [] }

/-- The same page, with the same events and the same exceptions of methods in some order. -/
structure Alike (left right : ClassPage) : Prop where
  outline : left.outline = right.outline
  methods : List.Forall₂ Method.Alike left.methods right.methods
  eventUse : left.eventUse.Alike right.eventUse

variable {left right : ClassPage}

theorem Alike.name (alike : left.Alike right) : left.name = right.name :=
  alike.eventUse.className

/-- The same records lead to pages that are alike, in whatever order they are made. -/
theorem Alike.foldl_onPage (alike : left.Alike right) {records others : List SourceRecord}
    (reordered : records.Perm others) :
    (records.foldl SourceRecord.onPage left).Alike (others.foldl SourceRecord.onPage right) := by
  rw [ApiReference.foldl_onPage, ApiReference.foldl_onPage]
  constructor
  case outline =>
    have same := alike.outline
    exact same
  case methods =>
    rw [← alike.name]
    refine Method.forall₂_alike_trans (Method.forall₂_foldl_raise alike.methods _) ?_
    exact Method.foldl_raise_perm (reordered.filterMap _) _
  case eventUse =>
    constructor
    case className => exact alike.name
    case sent =>
      intro event
      simp only [ClassPage.eventUse, List.mem_append, ← alike.name]
      exact or_congr (alike.eventUse.sent event) (reordered.filterMap _).mem_iff
    case listened =>
      intro event
      simp only [ClassPage.eventUse, List.mem_append, ← alike.name]
      exact or_congr (alike.eventUse.listened event) (reordered.filterMap _).mem_iff

end ClassPage

theorem Event.Alike.foldl_onEvent {left right : Event} (alike : left.Alike right)
    {records others : List SourceRecord} (reordered : records.Perm others) :
    (records.foldl SourceRecord.onEvent left).Alike (others.foldl SourceRecord.onEvent right) := by
  rw [ApiReference.foldl_onEvent, ApiReference.foldl_onEvent]
  constructor
  case name => exact alike.name
  case senders =>
    intro className
    simp only [List.mem_append, ← alike.name]
    exact or_congr (alike.senders className) (reordered.filterMap _).mem_iff
  case listeners =>
    intro className
    simp only [List.mem_append, ← alike.name]
    exact or_congr (alike.listeners className) (reordered.filterMap _).mem_iff

namespace Library

variable {left right : Library}

/-- Libraries in which the same is recorded in some order. -/
structure Alike (left right : Library) : Prop where
  pages : ∀ name, Option.Rel ClassPage.Alike (left.page? name) (right.page? name)
  events : ∀ name, Option.Rel Event.Alike (left.events.find? name) (right.events.find? name)
  enumerations : left.enumerations = right.enumerations
  flags : left.flags = right.flags

theorem Alike.sameOutline (alike : left.Alike right) : left.SameOutline right where
  methodNames := by
    funext className
    have both := alike.pages className
    unfold methodNames?
    generalize left.page? className = first? at both
    generalize right.page? className = second? at both
    cases both with
    | none => rfl
    | some alike =>
      have names := List.rel_map (fun _ _ same => Method.Alike.name same) alike.methods
      rw [List.forall₂_eq_eq_eq] at names
      exact congrArg some names
  known := by
    funext name
    rw [EventTable.contains_eq, EventTable.contains_eq]
    exact isSome_eq_of_rel (alike.events name)

theorem find?_foldl_apply (records : List SourceRecord) (library : Library) (name : String) :
    (records.foldl SourceRecord.apply library).events.find? name =
      (library.events.find? name).map fun event => records.foldl SourceRecord.onEvent event := by
  rw [EventTable.find?_eq, EventTable.find?_eq, events_foldl_apply, List.find?_map]
  simp only [Function.comp_def, name_foldl_onEvent]

/-- The same records may be made in any order. -/
theorem Alike.foldl_apply (alike : left.Alike right) {records others : List SourceRecord}
    (reordered : records.Perm others) :
    (records.foldl SourceRecord.apply left).Alike (others.foldl SourceRecord.apply right) where
  pages name := by
    rw [page?_foldl_apply, page?_foldl_apply]
    exact rel_map (alike.pages name) fun _ _ same => same.foldl_onPage reordered
  events name := by
    rw [find?_foldl_apply, find?_foldl_apply]
    exact rel_map (alike.events name) fun _ _ same => same.foldl_onEvent reordered
  enumerations := by
    rw [(rest_foldl_apply records left).1, (rest_foldl_apply others right).1, alike.enumerations]
  flags := by
    rw [(rest_foldl_apply records left).2, (rest_foldl_apply others right).2, alike.flags]

/-! ## Implementations -/

/-- To scan implementations is to make the records of them all, as they are by the library from
which the scan starts. -/
theorem scanSources_eq (library : Library) (classes : List ListedClass) :
    library.scanSources classes =
      (classes.flatMap fun listed =>
        library.sourceRecords listed.name listed.sourceLines).foldl SourceRecord.apply library := by
  induction classes generalizing library with
  | nil => rfl
  | cons first later ih =>
    have step : library.scanSources (first :: later) =
        (library.scanSource first.name first.sourceLines).library.scanSources later := rfl
    -- what the first class has recorded changes nothing that the later ones are read by
    have same := sameOutline_foldl_apply
      (library.sourceRecords first.name first.sourceLines) library
    rw [step, library_scanSource, ih, List.flatMap_cons, List.foldl_append]
    simp only [same.sourceRecords]

theorem Alike.scanSources (alike : left.Alike right) {classes others : List ListedClass}
    (reordered : classes.Perm others) :
    (left.scanSources classes).Alike (right.scanSources others) := by
  rw [scanSources_eq, scanSources_eq]
  refine alike.foldl_apply ?_
  simp only [alike.sameOutline.sourceRecords]
  exact reordered.flatMap_right _

end Library

/-! ## Headers -/

namespace EventTable

theorem find?_add (table : EventTable) (added name : String) :
    (table.add added).find? name =
      (table.find? name).or (if name = added then some ⟨name, [], []⟩ else none) := by
  have blank : [(⟨added, [], []⟩ : Event)].find? (·.name = name) =
      if name = added then some ⟨name, [], []⟩ else none := by
    by_cases same : name = added
    · subst same
      simp
    · simp [same, Ne.symm same]
  rw [← blank]
  exact table.made.exact.find?_insert ⟨added, [], []⟩ name

/-- Events that become known are found without classes, unless they were known. -/
theorem find?_addAll (table : EventTable) (names : List String) (name : String) :
    (table.addAll names).find? name =
      (table.find? name).or (if name ∈ names then some ⟨name, [], []⟩ else none) := by
  induction names generalizing table with
  | nil => exact Option.or_none.symm
  | cons first later ih =>
    have step : table.addAll (first :: later) = (table.add first).addAll later := rfl
    rw [step, ih, find?_add, Option.or_assoc]
    congr 1
    by_cases isFirst : name = first
    · simp [isFirst]
    · simp [isFirst]

end EventTable

namespace ClassPage

/-- Declare the events of a header on a page, if it is that of the class. -/
def declare (page : ClassPage) (listed : ListedClass) : ClassPage :=
  if page.name = listed.name then page.declareEvents (declaredEvents listed.headerLines) else page

@[simp]
theorem name_declare (page : ClassPage) (listed : ListedClass) :
    (page.declare listed).name = page.name := by
  unfold declare
  split <;> rfl

/-- A page after some headers: the events that those of its class declare are put behind what was
there. -/
theorem foldl_declare (classes : List ListedClass) (page : ClassPage) :
    classes.foldl declare page =
      { page with
        eventsSent := page.eventsSent ++ classes.flatMap fun listed =>
          if page.name = listed.name then declaredEvents listed.headerLines else [] } := by
  induction classes generalizing page with
  | nil => simp
  | cons first later ih =>
    rw [List.foldl_cons, ih, name_declare, List.flatMap_cons]
    by_cases here : page.name = first.name
    · simp [declare, declareEvents, here]
    · simp [declare, here]

/-- The headers may be read in any order. -/
theorem foldl_declare_alike {classes others : List ListedClass} (reordered : classes.Perm others)
    (page : ClassPage) : (classes.foldl declare page).Alike (others.foldl declare page) := by
  rw [foldl_declare, foldl_declare]
  constructor
  case outline => rfl
  case methods => exact Method.forall₂_alike_refl page.methods
  case eventUse =>
    constructor
    case className => rfl
    case sent =>
      intro event
      simp only [ClassPage.eventUse, List.mem_append]
      exact or_congr_right (reordered.flatMap_right _).mem_iff
    case listened => exact fun event => Iff.rfl

end ClassPage

namespace Library

variable {left right : Library}

/-- The events that a header of a class of the library declares. -/
def declaredFor (library : Library) (listed : ListedClass) : List String :=
  if (library.page? listed.name).isSome then declaredEvents listed.headerLines else []

/-- What the header of a class does to a library. -/
theorem scanHeader_eq (library : Library) (listed : ListedClass) :
    (library.scanHeader listed.name listed.headerLines).1.pages =
        library.pages.map (·.declare listed) ∧
      (library.scanHeader listed.name listed.headerLines).1.events =
        library.events.addAll (library.declaredFor listed) := by
  rw [scanHeader_atOnce, declaredFor]
  cases found : library.page? listed.name with
  | none =>
    refine ⟨?_, rfl⟩
    -- there is no page of the name, so that `declare` leaves all of them alone
    have otherName : ∀ page ∈ library.pages, page.declare listed = page := by
      intro page member
      refine if_neg fun same => ?_
      have isFound := page?_isSome_iff.mpr (List.mem_map_of_mem member)
      rw [same, found] at isFound
      cases isFound
    rw [List.map_congr_left otherName, List.map_id']
  | some page =>
    exact ⟨library.pages_modify listed.name _ (ClassPage.name_declareEvents _), rfl⟩

theorem page?_scanHeader (library : Library) (listed : ListedClass) (name : String) :
    (library.scanHeader listed.name listed.headerLines).1.page? name =
      (library.page? name).map (·.declare listed) := by
  rw [page?_eq, page?_eq, (library.scanHeader_eq listed).1, List.find?_map]
  simp only [Function.comp_def, ClassPage.name_declare]

theorem rest_scanHeader (library : Library) (className : String) (lines : List String) :
    (library.scanHeader className lines).1.enumerations = library.enumerations ∧
      (library.scanHeader className lines).1.flags = library.flags := by
  rw [scanHeader_atOnce]
  cases library.page? className with
  | none => exact ⟨rfl, rfl⟩
  | some page => exact ⟨rfl, rfl⟩

theorem page?_scanHeaders (library : Library) (classes : List ListedClass) (name : String) :
    (library.scanHeaders classes).page? name =
      (library.page? name).map fun page => classes.foldl ClassPage.declare page := by
  induction classes generalizing library with
  | nil => exact Option.map_id'.symm
  | cons first later ih =>
    have step : library.scanHeaders (first :: later) =
        (library.scanHeader first.name first.headerLines).1.scanHeaders later := rfl
    rw [step, ih, page?_scanHeader, Option.map_map]
    rfl

theorem events_scanHeaders (library : Library) (classes : List ListedClass) :
    (library.scanHeaders classes).events =
      library.events.addAll (classes.flatMap library.declaredFor) := by
  induction classes generalizing library with
  | nil => rfl
  | cons first later ih =>
    have step : library.scanHeaders (first :: later) =
        (library.scanHeader first.name first.headerLines).1.scanHeaders later := rfl
    have sameClasses : (library.scanHeader first.name first.headerLines).1.declaredFor =
        library.declaredFor := by
      funext listed
      rw [declaredFor, declaredFor, page?_scanHeader, Option.isSome_map]
    rw [step, ih, sameClasses, (library.scanHeader_eq first).2, List.flatMap_cons]
    exact List.foldl_append.symm

theorem rest_scanHeaders (library : Library) (classes : List ListedClass) :
    (library.scanHeaders classes).enumerations = library.enumerations ∧
      (library.scanHeaders classes).flags = library.flags := by
  refine List.foldlRecOn (motive := fun later : Library =>
    later.enumerations = library.enumerations ∧ later.flags = library.flags) classes _ ⟨rfl, rfl⟩ ?_
  intro later kept listed _
  obtain ⟨enumerations, flags⟩ := later.rest_scanHeader listed.name listed.headerLines
  exact ⟨enumerations.trans kept.1, flags.trans kept.2⟩

namespace SameLookup

/-- The headers of the same classes may be scanned in any order. -/
theorem scanHeaders (same : left.SameLookup right) {classes others : List ListedClass}
    (reordered : classes.Perm others) :
    (left.scanHeaders classes).Alike (right.scanHeaders others) where
  pages name := by
    rw [page?_scanHeaders, page?_scanHeaders, same.page?]
    cases right.page? name with
    | none => exact .none
    | some page => exact .some (ClassPage.foldl_declare_alike reordered page)
  events name := by
    have sameClasses : left.declaredFor = right.declaredFor := by
      funext listed
      rw [declaredFor, declaredFor, same.page?]
    have sameEvents : (left.scanHeaders classes).events.find? name =
        (right.scanHeaders others).events.find? name := by
      rw [events_scanHeaders, events_scanHeaders, EventTable.find?_addAll, EventTable.find?_addAll,
        same.events, sameClasses]
      simp only [(reordered.flatMap_right right.declaredFor).mem_iff]
    rw [sameEvents]
    cases (right.scanHeaders others).events.find? name with
    | none => exact .none
    | some event => exact .some (.refl event)
  enumerations := by
    rw [(rest_scanHeaders left classes).1, (rest_scanHeaders right others).1, same.enumerations]
  flags := by
    rw [(rest_scanHeaders left classes).2, (rest_scanHeaders right others).2, same.flags]

/-- The sources of the same classes may be scanned in any order. -/
theorem scan (same : left.SameLookup right) {classes others : List ListedClass}
    (reordered : classes.Perm others) :
    ((left.scanHeaders classes).scanSources classes).Alike
      ((right.scanHeaders others).scanSources others) :=
  (same.scanHeaders reordered).scanSources reordered

end SameLookup

end Library

end ApiReference
