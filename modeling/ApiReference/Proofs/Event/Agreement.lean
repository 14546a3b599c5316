import ApiReference.Proofs.Event.Table

/-!
# Two accounts of the same events

What classes do with events is told twice, beside the classes and beside the events.
`AgreesOnEvents` states how far the two accounts agree: on listeners they say the same, and on
senders they differ only by the events that the header of a class declares, which are told beside
the class alone.  The classes that the events name exist, and so do the events that the classes
name.

Recording a use on both sides keeps the agreement (`AgreesOnEvents.record`), and so do declaring
events (`AgreesOnEvents.declare`) and putting either account into another order
(`AgreesOnEvents.reorder`).
-/

set_option autoImplicit false

namespace ApiReference

/-- What a class does with events, as it is told beside the class. -/
structure EventUse where
  className : String
  sent : List String
  listened : List String
deriving DecidableEq, Repr

namespace EventUse

variable {className event other : String} {role : EventRole} {names : List String}
  {use : EventUse}

/-- The use of an event by the class of the given name. -/
def recordAt (className event : String) (role : EventRole) (use : EventUse) : EventUse :=
  if use.className = className then
    match role with
    | .sends => { use with sent := use.sent ++ [event] }
    | .listens => { use with listened := use.listened ++ [event] }
  else use

/-- The declaration of events by the class of the given name. -/
def declareAt (className : String) (names : List String) (use : EventUse) : EventUse :=
  if use.className = className then { use with sent := use.sent ++ names } else use

@[simp]
theorem className_recordAt : (recordAt className event role use).className = use.className := by
  unfold recordAt
  split
  · cases role <;> rfl
  · rfl

theorem mem_sent_recordAt :
    other ∈ (recordAt className event role use).sent ↔
      other ∈ use.sent ∨ role = .sends ∧ use.className = className ∧ other = event := by
  unfold recordAt
  split
  · cases role <;> simp [*]
  · simp [*]

theorem mem_listened_recordAt :
    other ∈ (recordAt className event role use).listened ↔
      other ∈ use.listened ∨ role = .listens ∧ use.className = className ∧ other = event := by
  unfold recordAt
  split
  · cases role <;> simp [*]
  · simp [*]

@[simp]
theorem className_declareAt : (declareAt className names use).className = use.className := by
  unfold declareAt
  split <;> rfl

@[simp]
theorem listened_declareAt : (declareAt className names use).listened = use.listened := by
  unfold declareAt
  split <;> rfl

theorem mem_sent_declareAt :
    other ∈ (declareAt className names use).sent ↔
      other ∈ use.sent ∨ use.className = className ∧ other ∈ names := by
  unfold declareAt
  split <;> simp [*]

/-- The use with its lists ordered and each event named once. -/
def prune (use : EventUse) : EventUse :=
  ⟨use.className, sortedNames use.sent, sortedNames use.listened⟩

/-- The same class, with the same events in some order. -/
structure Alike (left right : EventUse) : Prop where
  className : left.className = right.className
  sent : ∀ name, name ∈ left.sent ↔ name ∈ right.sent
  listened : ∀ name, name ∈ left.listened ↔ name ∈ right.listened

theorem Alike.refl (use : EventUse) : use.Alike use :=
  ⟨rfl, fun _ => Iff.rfl, fun _ => Iff.rfl⟩

theorem alike_prune (use : EventUse) : use.prune.Alike use :=
  ⟨rfl, fun _ => mem_sortedNames, fun _ => mem_sortedNames⟩

end EventUse

namespace Event

/-- The same event, with the same classes in some order. -/
structure Alike (left right : Event) : Prop where
  name : left.name = right.name
  senders : ∀ className, className ∈ left.senders ↔ className ∈ right.senders
  listeners : ∀ className, className ∈ left.listeners ↔ className ∈ right.listeners

theorem Alike.refl (event : Event) : event.Alike event :=
  ⟨rfl, fun _ => Iff.rfl, fun _ => Iff.rfl⟩

theorem alike_prune (event : Event) : event.prune.Alike event :=
  ⟨rfl, fun _ => mem_sortedNames, fun _ => mem_sortedNames⟩

end Event

namespace EventTable

variable {eventName className other : String} {role : EventRole} {event : Event}

theorem mem_senders_recordAt :
    other ∈ (recordAt eventName className role event).senders ↔
      other ∈ event.senders ∨ role = .sends ∧ event.name = eventName ∧ other = className := by
  unfold recordAt
  split
  · cases role <;> simp [Event.record, *]
  · simp [*]

theorem mem_listeners_recordAt :
    other ∈ (recordAt eventName className role event).listeners ↔
      other ∈ event.listeners ∨ role = .listens ∧ event.name = eventName ∧ other = className := by
  unfold recordAt
  split
  · cases role <;> simp [Event.record, *]
  · simp [*]

/-- Making an event known adds it without classes, unless it was known. -/
theorem mem_events_add {table : EventTable} {name : String} :
    event ∈ (table.add name).events ↔
      event ∈ table.events ∨ event = ⟨name, [], []⟩ ∧ name ∉ table.events.map Event.name := by
  rw [events_add]
  split
  · rename_i known
    simp only [known, not_true_eq_false, and_false, or_false]
  · rename_i fresh
    simp only [List.mem_append, List.mem_singleton, fresh, not_false_eq_true, and_true]

theorem mem_names_add {table : EventTable} {name : String} :
    other ∈ (table.add name).events.map Event.name ↔
      other ∈ table.events.map Event.name ∨ other = name := by
  rw [events_add]
  split
  · rename_i known
    exact ⟨Or.inl, fun member => member.elim id fun same => same ▸ known⟩
  · simp

/-- Making events known adds those that were not, without classes. -/
theorem mem_events_addAll {table : EventTable} {names : List String} :
    event ∈ (table.addAll names).events ↔
      event ∈ table.events ∨
        event = ⟨event.name, [], []⟩ ∧ event.name ∈ names ∧
          event.name ∉ table.events.map Event.name := by
  induction names generalizing table with
  | nil => simp [addAll]
  | cons first later ih =>
    have step : table.addAll (first :: later) = (table.add first).addAll later := rfl
    rw [step, ih, mem_events_add, mem_names_add, List.mem_cons]
    constructor
    · rintro ((old | ⟨rfl, fresh⟩) | ⟨blank, inLater, fresh⟩)
      · exact Or.inl old
      · exact Or.inr ⟨rfl, Or.inl rfl, fresh⟩
      · exact Or.inr ⟨blank, Or.inr inLater, fun old => fresh (Or.inl old)⟩
    · rintro (old | ⟨blank, inAll, fresh⟩)
      · exact Or.inl (Or.inl old)
      · by_cases isFirst : event.name = first
        · exact Or.inl (Or.inr ⟨isFirst ▸ blank, isFirst ▸ fresh⟩)
        · exact Or.inr ⟨blank, inAll.resolve_left isFirst, fun known => known.elim fresh isFirst⟩

theorem mem_names_addAll {table : EventTable} {names : List String} :
    other ∈ (table.addAll names).events.map Event.name ↔
      other ∈ table.events.map Event.name ∨ other ∈ names := by
  simp only [List.mem_map, mem_events_addAll]
  constructor
  · rintro ⟨event, old | ⟨-, offered, -⟩, rfl⟩
    · exact Or.inl ⟨event, old, rfl⟩
    · exact Or.inr offered
  · by_cases known : ∃ event ∈ table.events, event.name = other
    · obtain ⟨event, old, same⟩ := known
      exact fun _ => ⟨event, Or.inl old, same⟩
    · exact fun member => ⟨⟨other, [], []⟩, Or.inr ⟨rfl, member.resolve_left known, known⟩, rfl⟩

end EventTable

/-! ## The agreement -/

/-- The account beside the classes and that beside the events agree, up to the events that a class
is said to declare. -/
structure AgreesOnEvents (declared : String → String → Prop) (uses : List EventUse)
    (events : List Event) : Prop where
  listens_iff : ∀ use ∈ uses, ∀ event ∈ events,
    use.className ∈ event.listeners ↔ event.name ∈ use.listened
  sent_of_sender : ∀ use ∈ uses, ∀ event ∈ events,
    use.className ∈ event.senders → event.name ∈ use.sent
  sender_of_sent : ∀ use ∈ uses, ∀ event ∈ events, event.name ∈ use.sent →
    use.className ∈ event.senders ∨ declared use.className event.name
  known : ∀ use ∈ uses, ∀ name, name ∈ use.sent ∨ name ∈ use.listened →
    name ∈ events.map Event.name
  existing : ∀ event ∈ events, ∀ className,
    className ∈ event.senders ∨ className ∈ event.listeners →
      className ∈ uses.map EventUse.className

namespace AgreesOnEvents

variable {declared more : String → String → Prop} {uses : List EventUse} {events : List Event}

/-- Where nothing is told, the accounts agree. -/
theorem of_unused (noUse : ∀ use ∈ uses, use.sent = [] ∧ use.listened = [])
    (noClass : ∀ event ∈ events, event.senders = [] ∧ event.listeners = []) :
    AgreesOnEvents declared uses events where
  listens_iff use inUses event inEvents := by
    rw [(noUse use inUses).2, (noClass event inEvents).2]
    simp
  sent_of_sender use inUses event inEvents sender := by
    rw [(noClass event inEvents).1] at sender
    cases sender
  sender_of_sent use inUses event inEvents sent := by
    rw [(noUse use inUses).1] at sent
    cases sent
  known use inUses name told := by
    rw [(noUse use inUses).1, (noUse use inUses).2] at told
    simp at told
  existing event inEvents className told := by
    rw [(noClass event inEvents).1, (noClass event inEvents).2] at told
    simp at told

theorem mono (agree : AgreesOnEvents declared uses events)
    (weaker : ∀ className event, declared className event → more className event) :
    AgreesOnEvents more uses events where
  listens_iff := agree.listens_iff
  sent_of_sender := agree.sent_of_sender
  sender_of_sent use inUses event inEvents sent :=
    (agree.sender_of_sent use inUses event inEvents sent).imp_right (weaker _ _)
  known := agree.known
  existing := agree.existing

/-- Recording a use of a known event by an existing class on both sides keeps the agreement. -/
theorem record (agree : AgreesOnEvents declared uses events) {className event : String}
    (isClass : className ∈ uses.map EventUse.className) (isKnown : event ∈ events.map Event.name)
    (role : EventRole) :
    AgreesOnEvents declared (uses.map (EventUse.recordAt className event role))
      (events.map (EventTable.recordAt event className role)) := by
  have sameClasses : (uses.map (EventUse.recordAt className event role)).map EventUse.className =
      uses.map EventUse.className := by
    rw [List.map_map]
    exact List.map_congr_left fun use _ => EventUse.className_recordAt
  constructor
  case listens_iff =>
    simp only [List.forall_mem_map]
    intro use inUses other inEvents
    rw [EventUse.className_recordAt, EventTable.name_recordAt, EventTable.mem_listeners_recordAt,
      EventUse.mem_listened_recordAt, agree.listens_iff use inUses other inEvents,
      and_comm (a := other.name = event)]
  case sent_of_sender =>
    simp only [List.forall_mem_map]
    intro use inUses other inEvents
    rw [EventUse.className_recordAt, EventTable.name_recordAt, EventTable.mem_senders_recordAt,
      EventUse.mem_sent_recordAt, and_comm (a := other.name = event)]
    exact Or.imp_left (agree.sent_of_sender use inUses other inEvents)
  case sender_of_sent =>
    simp only [List.forall_mem_map]
    intro use inUses other inEvents
    rw [EventUse.className_recordAt, EventTable.name_recordAt, EventTable.mem_senders_recordAt,
      EventUse.mem_sent_recordAt, and_comm (a := other.name = event)]
    rintro (sent | recorded)
    · exact (agree.sender_of_sent use inUses other inEvents sent).imp_left Or.inl
    · exact Or.inl (Or.inr recorded)
  case known =>
    have sameEvents : (events.map (EventTable.recordAt event className role)).map Event.name =
        events.map Event.name :=
      IndexedList.names_map (EventTable.name_recordAt event className role) events
    simp only [List.forall_mem_map, sameEvents]
    intro use inUses name
    rw [EventUse.mem_sent_recordAt, EventUse.mem_listened_recordAt]
    rintro ((sent | ⟨-, -, rfl⟩) | (listened | ⟨-, -, rfl⟩))
    · exact agree.known use inUses name (Or.inl sent)
    · exact isKnown
    · exact agree.known use inUses name (Or.inr listened)
    · exact isKnown
  case existing =>
    simp only [List.forall_mem_map, sameClasses]
    intro other inEvents name
    rw [EventTable.mem_senders_recordAt, EventTable.mem_listeners_recordAt]
    rintro ((sender | ⟨-, -, rfl⟩) | (listener | ⟨-, -, rfl⟩))
    · exact agree.existing other inEvents name (Or.inl sender)
    · exact isClass
    · exact agree.existing other inEvents name (Or.inr listener)
    · exact isClass

/-- Events that a class declares become known and are told beside the class alone. -/
theorem declare {table : EventTable} (agree : AgreesOnEvents declared uses table.events)
    (className : String) (names : List String) :
    AgreesOnEvents (fun user event => declared user event ∨ user = className ∧ event ∈ names)
      (uses.map (EventUse.declareAt className names)) (table.addAll names).events := by
  have sameClasses : (uses.map (EventUse.declareAt className names)).map EventUse.className =
      uses.map EventUse.className := by
    rw [List.map_map]
    exact List.map_congr_left fun use _ => EventUse.className_declareAt
  constructor
  case listens_iff =>
    simp only [List.forall_mem_map, EventUse.className_declareAt, EventUse.listened_declareAt]
    intro use inUses event inEvents
    rcases EventTable.mem_events_addAll.mp inEvents with old | ⟨blank, -, fresh⟩
    · exact agree.listens_iff use inUses event old
    · have unused : event.name ∉ use.listened :=
        fun listened => fresh (agree.known use inUses _ (Or.inr listened))
      rw [blank]
      simpa using unused
  case sent_of_sender =>
    simp only [List.forall_mem_map, EventUse.className_declareAt, EventUse.mem_sent_declareAt]
    intro use inUses event inEvents sender
    rcases EventTable.mem_events_addAll.mp inEvents with old | ⟨blank, -, -⟩
    · exact Or.inl (agree.sent_of_sender use inUses event old sender)
    · rw [blank] at sender
      cases sender
  case sender_of_sent =>
    simp only [List.forall_mem_map, EventUse.className_declareAt, EventUse.mem_sent_declareAt]
    rintro use inUses event inEvents (sent | declares)
    · rcases EventTable.mem_events_addAll.mp inEvents with old | ⟨-, -, fresh⟩
      · exact (agree.sender_of_sent use inUses event old sent).imp_right Or.inl
      · exact absurd (agree.known use inUses _ (Or.inl sent)) fresh
    · exact Or.inr (Or.inr declares)
  case known =>
    simp only [List.forall_mem_map, EventUse.mem_sent_declareAt, EventUse.listened_declareAt,
      EventTable.mem_names_addAll]
    rintro use inUses name ((sent | ⟨-, declares⟩) | listened)
    · exact Or.inl (agree.known use inUses name (Or.inl sent))
    · exact Or.inr declares
    · exact Or.inl (agree.known use inUses name (Or.inr listened))
  case existing =>
    rw [sameClasses]
    intro event inEvents
    rcases EventTable.mem_events_addAll.mp inEvents with old | ⟨blank, -, -⟩
    · exact agree.existing event old
    · rw [blank]
      simp

/-- What the accounts say does not depend on their order, nor on that of the lists in them. -/
theorem reorder {usesAfter : List EventUse} {eventsAfter : List Event}
    {changeUse : EventUse → EventUse} {changeEvent : Event → Event}
    (agree : AgreesOnEvents declared uses events)
    (usesOrder : usesAfter.Perm (uses.map changeUse))
    (usesAlike : ∀ use : EventUse, (changeUse use).Alike use)
    (eventsOrder : eventsAfter.Perm (events.map changeEvent))
    (eventsAlike : ∀ event : Event, (changeEvent event).Alike event) :
    AgreesOnEvents declared usesAfter eventsAfter := by
  have sameClasses (className : String) : className ∈ usesAfter.map EventUse.className ↔
      className ∈ uses.map EventUse.className := by
    rw [(usesOrder.map _).mem_iff, List.map_map]
    exact iff_of_eq (congrArg _ (List.map_congr_left fun use _ => (usesAlike use).className))
  have sameEvents (name : String) : name ∈ eventsAfter.map Event.name ↔
      name ∈ events.map Event.name := by
    rw [(eventsOrder.map _).mem_iff, List.map_map]
    exact iff_of_eq (congrArg _ (List.map_congr_left fun event _ => (eventsAlike event).name))
  constructor
  case listens_iff =>
    simp only [usesOrder.mem_iff, eventsOrder.mem_iff, List.forall_mem_map]
    intro use inUses event inEvents
    rw [(usesAlike use).className, (eventsAlike event).name, (usesAlike use).listened,
      (eventsAlike event).listeners]
    exact agree.listens_iff use inUses event inEvents
  case sent_of_sender =>
    simp only [usesOrder.mem_iff, eventsOrder.mem_iff, List.forall_mem_map]
    intro use inUses event inEvents
    rw [(usesAlike use).className, (eventsAlike event).name, (usesAlike use).sent,
      (eventsAlike event).senders]
    exact agree.sent_of_sender use inUses event inEvents
  case sender_of_sent =>
    simp only [usesOrder.mem_iff, eventsOrder.mem_iff, List.forall_mem_map]
    intro use inUses event inEvents
    rw [(usesAlike use).className, (eventsAlike event).name, (usesAlike use).sent,
      (eventsAlike event).senders]
    exact agree.sender_of_sent use inUses event inEvents
  case known =>
    simp only [usesOrder.mem_iff, List.forall_mem_map]
    intro use inUses name
    rw [(usesAlike use).sent, (usesAlike use).listened, sameEvents]
    exact agree.known use inUses name
  case existing =>
    simp only [eventsOrder.mem_iff, List.forall_mem_map]
    intro event inEvents className
    rw [(eventsAlike event).senders, (eventsAlike event).listeners, sameClasses]
    exact agree.existing event inEvents className

end AgreesOnEvents

end ApiReference
