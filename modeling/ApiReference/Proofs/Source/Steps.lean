import ApiReference.Proofs.Source.EventUse

/-!
# Scanning step by step

Scanning a header, scanning an implementation, pruning the events and sorting are the steps by which
a library comes to know events.  They may be taken in any order and any number of times: what every
step keeps of the agreement on events (`EventsAgree.apply`), all of them keep (`EventsAgree.after`).
The agreement starts where no class is known to use an event (`Unused.eventsAgree_after`).
-/

set_option autoImplicit false

namespace ApiReference

/-- A step by which a library comes to know events, or puts in order what it knows of them. -/
inductive SourceStep where
  | header (className : String) (lines : List String)
  | implementation (className : String) (lines : List String)
  | prune
  | sort
deriving DecidableEq, Repr

namespace SourceStep

/-- Take a step. -/
def apply (library : Library) : SourceStep → Library
  | header className lines => (library.scanHeader className lines).1
  | implementation className lines => (library.scanSource className lines).library
  | prune => library.pruneEvents
  | sort => library.sort

/-- The step reads a header line of a class that declares an event. -/
def Declares (className event : String) : SourceStep → Prop
  | header owner lines => owner = className ∧ event ∈ declaredEvents lines
  | implementation _ _ | prune | sort => False

end SourceStep

namespace Library

variable {library : Library} {declared : String → String → Prop}

/-- The library after some steps. -/
def after (library : Library) (steps : List SourceStep) : Library :=
  steps.foldl SourceStep.apply library

theorem after_append (library : Library) (earlier later : List SourceStep) :
    library.after (earlier ++ later) = (library.after earlier).after later :=
  List.foldl_append

/-- One step keeps the agreement, if what it declares is counted in. -/
theorem EventsAgree.apply (agree : library.EventsAgree declared) (step : SourceStep) :
    (step.apply library).EventsAgree fun className event =>
      declared className event ∨ step.Declares className event := by
  cases step with
  | header owner lines =>
    refine AgreesOnEvents.mono (agree.scanHeader owner lines) ?_
    rintro className event (before | ⟨rfl, declares⟩)
    · exact Or.inl before
    · exact Or.inr ⟨rfl, declares⟩
  | implementation owner lines =>
    exact AgreesOnEvents.mono (agree.scanSource owner lines) fun _ _ => Or.inl
  | prune => exact AgreesOnEvents.mono agree.pruneEvents fun _ _ => Or.inl
  | sort => exact AgreesOnEvents.mono agree.sort fun _ _ => Or.inl

/-- All steps keep the agreement, if what they declare is counted in. -/
theorem EventsAgree.after (agree : library.EventsAgree declared) (steps : List SourceStep) :
    (library.after steps).EventsAgree fun className event =>
      declared className event ∨ ∃ step ∈ steps, step.Declares className event := by
  induction steps generalizing library declared with
  | nil => exact AgreesOnEvents.mono agree fun _ _ => Or.inl
  | cons step later ih =>
    refine AgreesOnEvents.mono (ih (agree.apply step)) ?_
    rintro className event ((before | here) | ⟨other, isLater, there⟩)
    · exact Or.inl before
    · exact Or.inr ⟨step, List.mem_cons_self, here⟩
    · exact Or.inr ⟨other, List.mem_cons_of_mem step isLater, there⟩

/-! ## Where nothing is known yet -/

/-- No class is known to use an event. -/
structure Unused (library : Library) : Prop where
  pages : ∀ page ∈ library.pages, page.eventsSent = [] ∧ page.eventsListened = []
  events : ∀ event ∈ library.events.events, event.senders = [] ∧ event.listeners = []

/-- From where no use is known, every way of scanning and ordering leads to agreement. -/
theorem Unused.eventsAgree_after (unused : library.Unused) (steps : List SourceStep) :
    (library.after steps).EventsAgree fun className event =>
      ∃ step ∈ steps, step.Declares className event := by
  have start : library.EventsAgree fun _ _ => False :=
    .of_unused (List.forall_mem_map.mpr unused.pages) unused.events
  exact AgreesOnEvents.mono (start.after steps) fun _ _ either => either.resolve_left id

/-- Where the same is told of events, no more uses are known. -/
theorem Unused.of_eventUses_eq {other : Library} (unused : library.Unused)
    (sameUses : other.eventUses = library.eventUses) (sameEvents : other.events = library.events) :
    other.Unused where
  pages := by
    have noneTold : ∀ use ∈ other.eventUses, use.sent = [] ∧ use.listened = [] := by
      rw [sameUses]
      exact List.forall_mem_map.mpr unused.pages
    exact List.forall_mem_map.mp noneTold
  events := sameEvents ▸ unused.events

end Library

end ApiReference
