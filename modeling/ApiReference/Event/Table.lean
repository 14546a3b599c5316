import ApiReference.Store.IndexedList
import ApiReference.Text.NameList

/-!
# Events

The table of known events, at most one of each name, with an index from names to positions.  An
event knows the classes that send it and those that listen to it.  Only known events are recorded.
-/

namespace ApiReference

set_option autoImplicit false

/-- What a class does with an event. -/
inductive EventRole where
  | sends
  | listens
deriving DecidableEq, Repr

/-- An event with the classes that send it and listen to it. -/
structure Event where
  name : String
  senders : List String
  listeners : List String
deriving DecidableEq, Repr, Inhabited

namespace Event

/-- Add a class to the senders or the listeners. -/
def record (className : String) (role : EventRole) (event : Event) : Event :=
  match role with
  | .sends => { event with senders := event.senders ++ [className] }
  | .listens => { event with listeners := event.listeners ++ [className] }

/-- Order the lists of classes and name each class once. -/
def prune (event : Event) : Event :=
  { event with
    senders := sortedNames event.senders
    listeners := sortedNames event.listeners }

@[simp]
theorem name_record (className : String) (role : EventRole) (event : Event) :
    (event.record className role).name = event.name := by
  cases role <;> rfl

@[simp]
theorem name_prune (event : Event) : event.prune.name = event.name := rfl

end Event

/-- Events in an order, found by their names. -/
structure EventTable where
  store : IndexedList Event.name
  made : store.Made
deriving DecidableEq, Repr

namespace EventTable

/-- The table with no event. -/
def empty : EventTable := ⟨.empty, IndexedList.made_empty⟩

instance : Inhabited EventTable := ⟨empty⟩

/-- The events of a table, in its order. -/
def events (table : EventTable) : List Event :=
  table.store.items

/-- How many events are known. -/
def size (table : EventTable) : Nat :=
  table.events.length

/-- The event with a name. -/
def find? (table : EventTable) (name : String) : Option Event :=
  table.store.find? name

/-- The event is known. -/
def contains (table : EventTable) (name : String) : Bool :=
  table.store.contains name

/-- Make an event known, unless it is. -/
def add (table : EventTable) (name : String) : EventTable :=
  ⟨table.store.insert ⟨name, [], []⟩, table.made.insert ⟨name, [], []⟩⟩

/-- Make events known one after the other. -/
def addAll (table : EventTable) (names : List String) : EventTable :=
  names.foldl add table

/-- The table of some events. -/
def ofNames (names : List String) : EventTable :=
  empty.addAll names

/-- Record a class with an event; if the event is not known nothing changes. -/
def record (table : EventTable) (eventName className : String) (role : EventRole) : EventTable :=
  ⟨table.store.modify eventName (Event.record className role),
    table.made.modify (Event.name_record className role) eventName⟩

/-- Order the events and their lists, and name each class once. -/
def prune (table : EventTable) : EventTable :=
  ⟨(table.store.mapItems Event.prune).sort (nameLe Event.name),
    (table.made.mapItems Event.name_prune).sort (nameLe Event.name)⟩

end EventTable

end ApiReference
