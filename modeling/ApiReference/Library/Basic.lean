import ApiReference.ClassPage
import ApiReference.Event.Table

/-!
# The library

All class pages with the known events, enumerations and flags.  Pages have an index from names to
positions; the first page of a name stays and later ones are refused.  Pages are changed in place,
through `mapPages` and `modify`, by changes of which it is proved that they keep the name.
-/

namespace ApiReference

set_option autoImplicit false

/-- The documented classes and what stands beside them. -/
structure Library where
  store : IndexedList ClassPage.name
  made : store.Made
  events : EventTable
  enumerations : List Enumeration
  flags : List Enumeration
deriving DecidableEq, Repr

namespace Library

/-- A library without classes, in which some events are known. -/
def ofEvents (events : EventTable) : Library :=
  ⟨.empty, IndexedList.made_empty, events, [], []⟩

instance : Inhabited Library := ⟨ofEvents .empty⟩

/-- The pages of a library, in its order. -/
def pages (library : Library) : List ClassPage :=
  library.store.items

/-- How many classes there are. -/
def size (library : Library) : Nat :=
  library.pages.length

/-- The page of a class. -/
def page? (library : Library) (name : String) : Option ClassPage :=
  library.store.find? name

/-- The position of the page of a class. -/
def position? (library : Library) (name : String) : Option Nat :=
  library.store.position? name

/-- The position of the page that a source line means by a name: that of the class of the name, or
else that of the first class whose name is the name behind one of the given beginnings. -/
def positionMeant? (library : Library) (beginnings : List String) (name : String) : Option Nat :=
  (name :: beginnings.map (· ++ name)).findSome? library.position?

/-- The page that a source line means by a name. -/
def pageMeant? (library : Library) (beginnings : List String) (name : String) :
    Option ClassPage :=
  (library.positionMeant? beginnings name).bind fun position => library.pages[position]?

/-- The name of the class at a position, and an empty one where there is no page. -/
def nameAt (library : Library) (position : Nat) : String :=
  (library.pages[position]?.map ClassPage.name).getD ""

/-! ## Adding -/

/-- Add a page, unless there is one of that name. -/
def addPage (library : Library) (page : ClassPage) : Library :=
  { library with
    store := library.store.insert page
    made := library.made.insert page }

/-- Why a page is refused, if it is. -/
def refusal? (library : Library) (page : ClassPage) : Option Finding :=
  (library.page? page.name).map fun kept => .duplicateClass kept.name

/-- Add pages one after the other, and report those that are refused. -/
def addPages (library : Library) : List ClassPage → Library × List Finding
  | [] => (library, [])
  | page :: later =>
    let (filled, findings) := (library.addPage page).addPages later
    (filled, (library.refusal? page).toList ++ findings)

/-- Add an enumeration at the end. -/
def addEnumeration (library : Library) (enumeration : Enumeration) : Library :=
  { library with enumerations := library.enumerations ++ [enumeration] }

/-- Add a set of flags at the end. -/
def addFlags (library : Library) (flags : Enumeration) : Library :=
  { library with flags := library.flags ++ [flags] }

/-! ## Changing pages -/

/-- Change every page. -/
def mapPages (library : Library) (change : ClassPage → ClassPage)
    (keeps : IndexedList.KeepsName ClassPage.name change) : Library :=
  { library with
    store := library.store.mapItems change
    made := library.made.mapItems keeps }

/-- Change the page at a position. -/
def modifyAt (library : Library) (position : Nat) (change : ClassPage → ClassPage)
    (keeps : IndexedList.KeepsName ClassPage.name change) : Library :=
  { library with
    store := library.store.modifyAt position change
    made := library.made.modifyAt keeps position }

/-- Change the page of one class; if there is no such class nothing changes. -/
def modify (library : Library) (name : String) (change : ClassPage → ClassPage)
    (keeps : IndexedList.KeepsName ClassPage.name change := by exact fun _ => rfl) : Library :=
  { library with
    store := library.store.modify name change
    made := library.made.modify keeps name }

/-- Substitute aliases in the types of all members of all classes. -/
def normalize (expanded : ExpandedTable) (library : Library) : Library :=
  library.mapPages (ClassPage.normalize expanded) (ClassPage.name_normalize expanded)

/-- Order and prune the events of the library and of every class. -/
def pruneEvents (library : Library) : Library :=
  { library.mapPages ClassPage.pruneEvents ClassPage.name_pruneEvents with
    events := library.events.prune }

/-- Order the classes by name, and the members of every class. -/
def sort (library : Library) : Library :=
  let sorted := library.mapPages ClassPage.sort ClassPage.name_sort
  { sorted with
    store := sorted.store.sort (nameLe ClassPage.name)
    made := sorted.made.sort (nameLe ClassPage.name) }

end Library

end ApiReference
