import ApiReference.Proofs.Source.Order
import ApiReference.Proofs.Source.Places
import Mathlib.Algebra.BigOperators.Group.List.Basic
import Mathlib.Algebra.GroupWithZero.Nat

/-!
# What a scan adds

The scan of an implementation takes nothing away.  It puts further events behind those that its own
class sends and listens to, the class behind those that use a known event, and further exceptions
behind those of first overloads (`Library.GrowsTo`).  The records that a scan makes say what these
are.

What the scan counts is by how much the lists have grown (`Library.CountsGrowth`).  A use of an event
makes two lists longer, one on the page of the class and one with the event, so that its count is the
growth of the two lists of the class as well as that of the lists of all events.  Every line keeps
the counts right (`Library.CountsGrowth.readLine`), and so do all of them
(`Library.growsTo_scanSource`).
-/

set_option autoImplicit false

namespace ApiReference

/-- If a change makes only the item of one name grow, all of them together grow by as much. -/
theorem sum_map_change {α : Type} {name : α → String} {items : List α}
    (distinct : (items.map name).Nodup) {change : α → α} {size : α → Nat} (growth : α → Nat)
    (key : String)
    (here : ∀ item, name item = key → size (change item) = size item + growth item)
    (elsewhere : ∀ item, name item ≠ key → size (change item) = size item) :
    ((items.map change).map size).sum =
      (items.map size).sum + (items.find? (name · = key)).elim 0 growth := by
  rw [List.map_map]
  induction items with
  | nil => rfl
  | cons first later ih =>
    obtain ⟨isNew, distinctLater⟩ := List.nodup_cons.mp distinct
    rw [List.map_cons, List.map_cons, List.sum_cons, List.sum_cons, Function.comp_apply]
    by_cases isKey : name first = key
    · have othersStay : later.map (size ∘ change) = later.map size := by
        refine List.map_congr_left fun other member => elsewhere other fun same => isNew ?_
        rw [isKey, ← same]
        exact List.mem_map_of_mem member
      rw [List.find?_cons_of_pos (by simpa using isKey), Option.elim_some, othersStay,
        here first isKey]
      omega
    · rw [List.find?_cons_of_neg (by simpa using isKey), elsewhere first isKey, ih distinctLater]
      omega

/-! ## Exceptions -/

namespace Method

/-- A method that may have got further exceptions, each of them once. -/
structure GrowsTo (before after : Method) : Prop where
  rest : after.withoutExceptions = before.withoutExceptions
  exceptions : ∃ added, after.exceptions = before.exceptions ++ added ∧ added.Nodup ∧
    ∀ exception ∈ added, exception ∉ before.exceptions

namespace GrowsTo

variable {before between after : Method}

theorem refl (method : Method) : method.GrowsTo method :=
  ⟨rfl, [], (List.append_nil _).symm, List.nodup_nil, List.forall_mem_nil _⟩

theorem trans (first : before.GrowsTo between) (second : between.GrowsTo after) :
    before.GrowsTo after := by
  obtain ⟨sameFirst, added, listed, once, fresh⟩ := first
  obtain ⟨sameSecond, addedLater, listedLater, onceLater, freshLater⟩ := second
  rw [listed] at listedLater freshLater
  refine ⟨sameSecond.trans sameFirst, added ++ addedLater, ?_, ?_, ?_⟩
  · rw [listedLater, List.append_assoc]
  · refine List.nodup_append.mpr ⟨once, onceLater, ?_⟩
    rintro exception isAdded _ isAddedLater rfl
    exact freshLater exception isAddedLater (List.mem_append_right _ isAdded)
  · intro exception isAdded
    rcases List.mem_append.mp isAdded with isEarlier | isLater
    · exact fresh exception isEarlier
    · exact fun known => freshLater exception isLater (List.mem_append_left _ known)

end GrowsTo

theorem growsTo_addException (method : Method) (exception : RaisedException) :
    method.GrowsTo (method.addException exception) := by
  refine ⟨withoutExceptions_addException method exception, ?_⟩
  rw [exceptions_addException]
  split
  · exact ⟨[], (List.append_nil _).symm, List.nodup_nil, List.forall_mem_nil _⟩
  · rename_i fresh
    exact ⟨[exception], rfl, List.nodup_singleton exception, List.forall_mem_singleton.mpr fresh⟩

/-- Methods of which the first overloads may have got further exceptions. -/
structure FirstOverloadsGrowTo (before after : List Method) : Prop where
  methods : List.Forall₂ GrowsTo before after
  overloads : ∀ name, (after.filter (·.name = name)).tail = (before.filter (·.name = name)).tail

theorem filter_raise_of_ne {methods : List Method} {name : String}
    {raised : String × RaisedException} (different : raised.1 ≠ name) :
    (raise methods raised).filter (·.name = name) = methods.filter (·.name = name) := by
  induction methods with
  | nil => rfl
  | cons first later ih =>
    rw [raise_cons]
    split
    · rename_i isRaised
      have notNamed : first.name ≠ name := isRaised ▸ different
      rw [List.filter_cons_of_neg (by simpa using notNamed),
        List.filter_cons_of_neg (by simpa using notNamed)]
    · rw [List.filter_cons, List.filter_cons, ih]

namespace FirstOverloadsGrowTo

variable {before between after : List Method}

theorem refl (methods : List Method) : FirstOverloadsGrowTo methods methods :=
  ⟨List.forall₂_same.mpr fun method _ => .refl method, fun _ => rfl⟩

theorem trans (first : FirstOverloadsGrowTo before between)
    (second : FirstOverloadsGrowTo between after) : FirstOverloadsGrowTo before after := by
  refine ⟨?_, fun name => (second.overloads name).trans (first.overloads name)⟩
  exact forall₂_trans first.methods second.methods GrowsTo.trans

/-- One exception goes to the first overload of its function. -/
theorem raise (methods : List Method) (raised : String × RaisedException) :
    FirstOverloadsGrowTo methods (Method.raise methods raised) := by
  constructor
  case methods =>
    induction methods with
    | nil => exact .nil
    | cons first later ih =>
      rw [raise_cons]
      split
      · exact .cons (first.growsTo_addException raised.2) (refl later).methods
      · exact .cons (.refl first) ih
  case overloads =>
    intro name
    induction methods with
    | nil => rfl
    | cons first later ih =>
      rw [raise_cons]
      split
      · rw [List.filter_cons, List.filter_cons, name_addException]
        split <;> rfl
      · rename_i notRaised
        rw [List.filter_cons, List.filter_cons]
        split
        · rename_i isNamed
          have different : raised.1 ≠ name := of_decide_eq_true isNamed ▸ Ne.symm notRaised
          rw [List.tail_cons, List.tail_cons, filter_raise_of_ne different]
        · exact ih

theorem foldl_raise (raised : List (String × RaisedException)) (methods : List Method) :
    FirstOverloadsGrowTo methods (raised.foldl Method.raise methods) :=
  List.foldlRecOn (motive := FirstOverloadsGrowTo methods) raised _ (refl methods)
    fun later grows next _ => grows.trans (raise later next)

end FirstOverloadsGrowTo

/-- How many exceptions some methods list. -/
def exceptionCount (methods : List Method) : Nat :=
  (methods.map fun method => method.exceptions.length).sum

/-- An exception is counted if it is new to the first method of its name. -/
theorem exceptionCount_raise (methods : List Method) (name : String)
    (exception : RaisedException) :
    exceptionCount (Method.raise methods (name, exception)) =
      exceptionCount methods + (addExceptionTo name exception methods).2.toNat := by
  induction methods with
  | nil => rfl
  | cons first later ih =>
    unfold exceptionCount at ih ⊢
    rw [raise_cons, addExceptionTo]
    split
    · rw [List.map_cons, List.map_cons, List.sum_cons, List.sum_cons, exceptions_addException]
      by_cases known : exception ∈ first.exceptions
      · simp [known]
      · simp only [known, if_false, List.length_append, List.length_singleton, not_false_eq_true,
          decide_true, Bool.toNat_true]
        omega
    · rw [List.map_cons, List.map_cons, List.sum_cons, List.sum_cons, ih]
      exact (Nat.add_assoc _ _ _).symm

end Method

/-! ## Pages, events and libraries -/

/-- A page that may tell more of events, if it is that of the class at home, and more of
exceptions. -/
structure ClassPage.GrowsTo (known : EventTable) (home : String) (before after : ClassPage) :
    Prop where
  outline : after.outline = before.outline
  methods : Method.FirstOverloadsGrowTo before.methods after.methods
  sent : ∃ added, after.eventsSent = before.eventsSent ++ added ∧
    ∀ event ∈ added, before.name = home ∧ known.contains event = true
  listened : ∃ added, after.eventsListened = before.eventsListened ++ added ∧
    ∀ event ∈ added, before.name = home ∧ known.contains event = true

/-- An event that the class at home may use more often. -/
structure Event.GrowsTo (home : String) (before after : Event) : Prop where
  name : after.name = before.name
  senders : ∃ added, after.senders = before.senders ++ added ∧ ∀ user ∈ added, user = home
  listeners : ∃ added, after.listeners = before.listeners ++ added ∧ ∀ user ∈ added, user = home

namespace Library

/-- A library to which the scan of a class may have added. -/
structure GrowsTo (home : String) (before after : Library) : Prop where
  pages : List.Forall₂ (ClassPage.GrowsTo before.events home) before.pages after.pages
  events : List.Forall₂ (Event.GrowsTo home) before.events.events after.events.events
  enumerations : after.enumerations = before.enumerations
  flags : after.flags = before.flags

variable {library : Library} {home : String} {lines : List String}

theorem of_mem_usedBy? {className event : String} {role : EventRole}
    (used : event ∈ (library.sourceRecords home lines).filterMap
      (SourceRecord.usedBy? className role)) :
    className = home ∧ library.events.contains event = true := by
  obtain ⟨record, member, uses⟩ := List.mem_filterMap.mp used
  rw [SourceRecord.usedBy?_eq_some_iff.mp uses] at member
  obtain ⟨isHome, -, line, -, use⟩ := uses_mem_sourceRecords_iff.mp member
  exact ⟨isHome.symm, contains_of_eventUse? use⟩

theorem of_mem_userOf? {name user : String} {role : EventRole}
    (used : user ∈ (library.sourceRecords home lines).filterMap
      (SourceRecord.userOf? name role)) :
    user = home := by
  obtain ⟨record, member, uses⟩ := List.mem_filterMap.mp used
  rw [SourceRecord.userOf?_eq_some_iff.mp uses] at member
  exact (uses_mem_sourceRecords_iff.mp member).1.symm

/-- A scan only adds. -/
theorem growsTo_library_scanSource (library : Library) (home : String) (lines : List String) :
    library.GrowsTo home (library.scanSource home lines).library := by
  rw [library_scanSource]
  constructor
  case pages =>
    rw [pages_foldl_apply, List.forall₂_map_right_iff, List.forall₂_same]
    intro page _
    rw [foldl_onPage]
    exact ⟨rfl, .foldl_raise _ page.methods, ⟨_, rfl, fun _ => of_mem_usedBy?⟩,
      ⟨_, rfl, fun _ => of_mem_usedBy?⟩⟩
  case events =>
    rw [events_foldl_apply, List.forall₂_map_right_iff, List.forall₂_same]
    intro event _
    rw [foldl_onEvent]
    exact ⟨rfl, ⟨_, rfl, fun _ => of_mem_userOf?⟩, ⟨_, rfl, fun _ => of_mem_userOf?⟩⟩
  case enumerations => exact (rest_foldl_apply _ library).1
  case flags => exact (rest_foldl_apply _ library).2

/-! ## Counts -/

/-- How many uses of events the page of a class lists. -/
def ownUses (library : Library) (className : String) : Nat :=
  (library.page? className).elim 0 fun page => page.eventsSent.length + page.eventsListened.length

/-- How many uses the events list. -/
def listedUses (library : Library) : Nat :=
  (library.events.events.map fun event => event.senders.length + event.listeners.length).sum

/-- How many exceptions the methods of all classes list. -/
def exceptionCount (library : Library) : Nat :=
  (library.pages.map fun page => Method.exceptionCount page.methods).sum

theorem ownUses_recordEvent (known : (library.page? home).isSome = true) (event : String)
    (role : EventRole) :
    (library.recordEvent home event role).ownUses home = library.ownUses home + 1 := by
  have changed : (library.recordEvent home event role).page? home =
      (library.page? home).map fun page => (SourceRecord.uses home event role).onPage page :=
    page?_foldl_apply [.uses home event role] library home
  obtain ⟨page, found⟩ := Option.isSome_iff_exists.mp known
  have sameName := (page?_eq_some_iff.mp found).2
  rw [ownUses, ownUses, changed, found, Option.map_some, Option.elim_some, Option.elim_some]
  cases role with
  | sends =>
    simp only [SourceRecord.onPage, if_pos sameName, ClassPage.recordUse, List.length_append,
      List.length_singleton]
    omega
  | listens =>
    simp only [SourceRecord.onPage, if_pos sameName, ClassPage.recordUse, List.length_append,
      List.length_singleton]
    omega

theorem ownUses_recordException (library : Library) (className method : String)
    (exception : RaisedException) :
    (library.recordException className method exception).1.ownUses home = library.ownUses home := by
  have changed : (library.recordException className method exception).1.page? home =
      (library.page? home).map fun page =>
        (SourceRecord.raises className method exception).onPage page :=
    page?_foldl_apply [.raises className method exception] library home
  rw [ownUses, ownUses, changed]
  cases library.page? home with
  | none => rfl
  | some page =>
    rw [Option.map_some, Option.elim_some, Option.elim_some, SourceRecord.onPage]
    split <;> rfl

theorem listedUses_recordEvent {event : String} (known : library.events.contains event = true)
    (className : String) (role : EventRole) :
    (library.recordEvent className event role).listedUses = library.listedUses + 1 := by
  rw [EventTable.contains_eq] at known
  obtain ⟨listed, found⟩ := Option.isSome_iff_exists.mp known
  rw [listedUses, events_recordEvent]
  refine (sum_map_change library.events.names_nodup (fun _ => 1) event ?here ?elsewhere).trans ?_
  case here =>
    intro other isUsed
    rw [EventTable.recordAt, if_pos isUsed]
    cases role with
    | sends => simp only [Event.record, List.length_append, List.length_singleton]; omega
    | listens => simp only [Event.record, List.length_append, List.length_singleton]; omega
  case elsewhere =>
    intro other notUsed
    rw [EventTable.recordAt, if_neg notUsed]
  · rw [← EventTable.find?_eq, found]
    rfl

theorem exceptionCount_recordEvent (library : Library) (className event : String)
    (role : EventRole) :
    (library.recordEvent className event role).exceptionCount = library.exceptionCount := by
  have changed : (library.recordEvent className event role).pages =
      library.pages.map fun page => (SourceRecord.uses className event role).onPage page :=
    pages_apply library (.uses className event role)
  rw [exceptionCount, exceptionCount, changed, List.map_map]
  refine congrArg List.sum (List.map_congr_left fun page _ => ?_)
  cases role <;> simp only [Function.comp_apply, SourceRecord.onPage] <;> split <;> rfl

/-- An exception is counted if it is new. -/
theorem exceptionCount_recordException (library : Library) (className method : String)
    (exception : RaisedException) :
    (library.recordException className method exception).1.exceptionCount =
      library.exceptionCount +
        (library.recordException className method exception).2.toNat := by
  have changed : (library.recordException className method exception).1.pages =
      library.pages.map fun page =>
        (SourceRecord.raises className method exception).onPage page :=
    pages_apply library (.raises className method exception)
  rw [exceptionCount, changed]
  refine (sum_map_change library.names_nodup
    (fun page => (page.addException method exception).2.toNat) className ?here ?elsewhere).trans ?_
  case here =>
    intro page isClass
    rw [SourceRecord.onPage, if_pos isClass]
    exact Method.exceptionCount_raise page.methods method exception
  case elsewhere =>
    intro page otherClass
    rw [SourceRecord.onPage, if_neg otherClass]
  · rw [← page?_eq, recordException, exceptionCount]
    cases library.page? className <;> rfl

/-- What a scan that started from a library has counted is what has been added to it. -/
structure CountsGrowth (before : Library) (home : String) (scan : SourceScan) : Prop where
  ownUses : scan.library.ownUses home = before.ownUses home + scan.eventUses
  listedUses : scan.library.listedUses = before.listedUses + scan.eventUses
  exceptions : scan.library.exceptionCount = before.exceptionCount + scan.exceptions

namespace CountsGrowth

variable {before : Library} {scan : SourceScan}

theorem useEvent (counts : before.CountsGrowth home scan)
    (known : (scan.library.page? home).isSome = true) (line : List Token) :
    before.CountsGrowth home (scan.useEvent home line) := by
  unfold SourceScan.useEvent
  split
  · exact counts
  · rename_i event role use
    constructor
    case ownUses => rw [ownUses_recordEvent known, counts.ownUses, Nat.add_assoc]
    case listedUses =>
      rw [listedUses_recordEvent (contains_of_eventUse? use), counts.listedUses, Nat.add_assoc]
    case exceptions => rw [exceptionCount_recordEvent, counts.exceptions]

theorem notify (counts : before.CountsGrowth home scan) (line : List Token) :
    before.CountsGrowth home (scan.notify line) := by
  unfold SourceScan.notify
  split
  · rename_i owner function exception _ _
    constructor
    case ownUses => rw [ownUses_recordException, counts.ownUses]
    case listedUses => exact counts.listedUses
    case exceptions =>
      rw [exceptionCount_recordException, counts.exceptions]
      dsimp only
      split
      · rename_i isNew
        rw [isNew, Bool.toNat_true, Nat.add_assoc]
      · rename_i isOld
        rw [Bool.eq_false_iff.mpr isOld, Bool.toNat_false, Nat.add_zero]
  · exact counts

/-- Every line keeps the counts right. -/
theorem readLine (counts : before.CountsGrowth home scan)
    (known : (scan.library.page? home).isSome = true) (line : List Token) :
    before.CountsGrowth home (scan.readLine home line) := by
  have used := counts.useEvent known line
  unfold SourceScan.readLine SourceScan.followFunctions
  split
  · exact used
  · split
    · exact used.notify line
    · exact ⟨used.ownUses, used.listedUses, used.exceptions⟩

end CountsGrowth

theorem countsGrowth_scanSource (library : Library) (home : String) (lines : List String) :
    library.CountsGrowth home (library.scanSource home lines) := by
  have start : library.CountsGrowth home ⟨library, ⟨home, none⟩, 0, 0⟩ := ⟨rfl, rfl, rfl⟩
  rw [scanSource_eq]
  cases found : library.page? home with
  | none => exact start
  | some page =>
    have known : (library.page? home).isSome = true := by rw [found]; rfl
    refine (List.foldlRecOn (motive := fun scan : SourceScan =>
      (scan.library.page? home).isSome = true ∧ library.CountsGrowth home scan)
      _ _ ⟨known, start⟩ ?_).2
    rintro scan ⟨isClass, counts⟩ line -
    refine ⟨?_, counts.readLine isClass line⟩
    rwa [page?_isSome, (sameOutline_readLine home scan line).methodNames, ← page?_isSome]

/-- Scanning an implementation only adds, and counts what it adds.  All classes and events stay in
their places (`GrowsTo`), the uses of events that are counted are those added to the page of the
class, and as many are added to the events, and the exceptions that are counted are those added to
methods.  Where there is no such class, nothing happens.  At every line the function that is open is
a method of the class in which it was opened. -/
theorem growsTo_scanSource (library : Library) (home : String) (lines : List String) :
    let scan := library.scanSource home lines
    library.GrowsTo home scan.library ∧
      scan.library.ownUses home = library.ownUses home + scan.eventUses ∧
      scan.library.listedUses = library.listedUses + scan.eventUses ∧
      scan.library.exceptionCount = library.exceptionCount + scan.exceptions ∧
      (library.page? home = none → scan = ⟨library, ⟨home, none⟩, 0, 0⟩) ∧
      ∀ earlier, earlier <+: lines → ∀ owner function,
        (library.scanSource home earlier).place.currentFunction? = some (owner, function) →
          (library.scanSource home earlier).library.hasMethod owner function = true := by
  have counts := library.countsGrowth_scanSource home lines
  refine ⟨library.growsTo_library_scanSource home lines, counts.ownUses, counts.listedUses,
    counts.exceptions, fun unknown => scanSource_of_unknown unknown lines, ?_⟩
  intro earlier _ owner function current
  rw [(sameOutline_scanSource library home earlier).hasMethod]
  exact hasMethod_of_currentFunction? current

end Library

end ApiReference
