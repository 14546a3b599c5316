import ApiReference.Event.Table
import ApiReference.Proofs.Store.Exactness

/-!
# Tables of events

What the operations of a table do to its events, given that its index is exact: an unknown event is
added at the end, a use is recorded with the one event that has the name, and pruning orders the
events.  The events alone determine a table (`EventTable.ext`).
-/

set_option autoImplicit false

namespace ApiReference

namespace EventTable

variable {table other : EventTable} {name : String}

theorem ext (same : table.events = other.events) : table = other := by
  obtain ⟨store, made⟩ := table
  obtain ⟨otherStore, otherMade⟩ := other
  obtain rfl : store = otherStore := made.exact.eq_of_items_eq otherMade.exact same
  rfl

theorem names_nodup (table : EventTable) : (table.events.map Event.name).Nodup :=
  table.made.exact.nodup

theorem find?_eq (table : EventTable) (name : String) :
    table.find? name = table.events.find? (·.name = name) :=
  table.made.exact.find?_eq name

theorem find?_eq_some_iff {event : Event} :
    table.find? name = some event ↔ event ∈ table.events ∧ event.name = name :=
  table.made.exact.find?_eq_some_iff

theorem contains_iff : table.contains name = true ↔ name ∈ table.events.map Event.name :=
  table.made.exact.contains_iff

theorem contains_eq (table : EventTable) (name : String) :
    table.contains name = (table.find? name).isSome := by
  rw [Bool.eq_iff_iff, contains_iff, find?_eq, find?_name_isSome_iff]

theorem events_add (table : EventTable) (name : String) :
    (table.add name).events =
      if name ∈ table.events.map Event.name then table.events
      else table.events ++ [⟨name, [], []⟩] :=
  table.made.exact.items_insert _

/-- Events that become known move no other. -/
theorem position?_addAll (table : EventTable) (names : List String) {position : Nat}
    (known : table.store.position? name = some position) :
    (table.addAll names).store.position? name = some position := by
  induction names generalizing table with
  | nil => exact known
  | cons first later ih => exact ih (table.add first) (table.made.exact.position?_insert _ known)

/-- The event itself, or with a class recorded if it has the name. -/
def recordAt (eventName className : String) (role : EventRole) (event : Event) : Event :=
  if event.name = eventName then event.record className role else event

theorem name_recordAt (eventName className : String) (role : EventRole) (event : Event) :
    (recordAt eventName className role event).name = event.name :=
  IndexedList.KeepsName.ite (Event.name_record className role) eventName event

theorem events_record (table : EventTable) (eventName className : String) (role : EventRole) :
    (table.record eventName className role).events =
      table.events.map (recordAt eventName className role) :=
  table.made.exact.items_modify eventName _

theorem events_prune (table : EventTable) :
    table.prune.events = sortByName Event.name (table.events.map Event.prune) := rfl

end EventTable

end ApiReference
