import Std.Data.ExtTreeMap

/-!
# Lists with an index

An indexed list keeps items in an order and, beside them, an index from names to positions.  What is
looked up by a name is the item that stands where the index says, so a wrong index gives a wrong
item and no error.  Nothing in the type makes the index right: an item that is appended has to be
entered, a change in place has to leave the name, and a list that is sorted has to be numbered anew.

The edits that the tables of this library make are collected in `IndexedList.Edit`.  Changes in
place come with the proof that they keep names.  A list is `Made` if it comes from the empty one by
edits; that the index of such a list is right is proved in the module on exactness.
-/

namespace ApiReference

set_option autoImplicit false

/-- Items in an order, with the positions of their names. -/
structure IndexedList {α : Type} (nameOf : α → String) where
  items : List α
  index : Std.ExtTreeMap String Nat
deriving DecidableEq, Repr

namespace IndexedList

variable {α : Type} {nameOf : α → String}

/-- No items. -/
def empty : IndexedList nameOf := ⟨[], ∅⟩

instance : Inhabited (IndexedList nameOf) := ⟨empty⟩

/-- The names of the items, in their order. -/
def names (store : IndexedList nameOf) : List String :=
  store.items.map nameOf

/-! ## Looking up -/

/-- Where the index says that a name is. -/
def position? (store : IndexedList nameOf) (name : String) : Option Nat :=
  store.index[name]?

/-- The item that stands where the index says that the name is. -/
def find? (store : IndexedList nameOf) (name : String) : Option α :=
  (store.position? name).bind fun position => store.items[position]?

/-- The index knows the name. -/
def contains (store : IndexedList nameOf) (name : String) : Bool :=
  store.index.contains name

/-! ## Edits -/

/-- Add an item at the end and enter its name, unless the index knows the name. -/
def insert (item : α) (store : IndexedList nameOf) : IndexedList nameOf :=
  if store.contains (nameOf item) then store
  else ⟨store.items ++ [item], store.index.insert (nameOf item) store.items.length⟩

/-- Change the item at a position; the index stays. -/
def modifyAt (position : Nat) (change : α → α) (store : IndexedList nameOf) : IndexedList nameOf :=
  { store with items := store.items.modify position change }

/-- Change the item where the index says that a name is. -/
def modify (name : String) (change : α → α) (store : IndexedList nameOf) : IndexedList nameOf :=
  match store.position? name with
  | none => store
  | some position => store.modifyAt position change

/-- Change every item where it stands; the index stays. -/
def mapItems (change : α → α) (store : IndexedList nameOf) : IndexedList nameOf :=
  { store with items := store.items.map change }

/-- An index made from scratch: names in an order, each with its position. -/
def numbered (names : List String) : Std.ExtTreeMap String Nat :=
  names.zipIdx.foldl (fun index (name, position) => index.insert name position) ∅

/-- Order the items and make the index from scratch. -/
def sort (precedes : α → α → Bool) (store : IndexedList nameOf) : IndexedList nameOf :=
  let sorted := store.items.mergeSort precedes
  ⟨sorted, numbered (sorted.map nameOf)⟩

/-- A change that keeps the name of every item. -/
abbrev KeepsName (nameOf : α → String) (change : α → α) : Prop :=
  ∀ item, nameOf (change item) = nameOf item

/-- What is done to an indexed list. -/
inductive Edit (nameOf : α → String) where
  | insert (item : α)
  | modifyAt (position : Nat) (change : α → α) (keeps : KeepsName nameOf change)
  | mapItems (change : α → α) (keeps : KeepsName nameOf change)
  | sort (precedes : α → α → Bool)

/-- Make an edit. -/
def Edit.apply (store : IndexedList nameOf) : Edit nameOf → IndexedList nameOf
  | insert item => store.insert item
  | modifyAt position change _ => store.modifyAt position change
  | mapItems change _ => store.mapItems change
  | sort precedes => store.sort precedes

/-- Make edits one after the other. -/
def run (store : IndexedList nameOf) (edits : List (Edit nameOf)) : IndexedList nameOf :=
  edits.foldl Edit.apply store

/-- The list comes from the empty one by edits. -/
def Made (store : IndexedList nameOf) : Prop :=
  ∃ edits, store = empty.run edits

theorem made_empty : (empty : IndexedList nameOf).Made :=
  ⟨[], rfl⟩

namespace Made

variable {store : IndexedList nameOf} {change : α → α}

/-- One more edit. -/
theorem edit (made : store.Made) (edit : Edit nameOf) : (edit.apply store).Made := by
  obtain ⟨edits, rfl⟩ := made
  refine ⟨edits ++ [edit], ?_⟩
  rw [run, run, List.foldl_append]
  rfl

theorem insert (made : store.Made) (item : α) : (store.insert item).Made :=
  made.edit (.insert item)

theorem modifyAt (made : store.Made) (keeps : KeepsName nameOf change) (position : Nat) :
    (store.modifyAt position change).Made :=
  made.edit (.modifyAt position change keeps)

theorem modify (made : store.Made) (keeps : KeepsName nameOf change) (name : String) :
    (store.modify name change).Made := by
  unfold IndexedList.modify
  split
  · exact made
  · exact made.modifyAt keeps _

theorem mapItems (made : store.Made) (keeps : KeepsName nameOf change) :
    (store.mapItems change).Made :=
  made.edit (.mapItems change keeps)

theorem sort (made : store.Made) (precedes : α → α → Bool) : (store.sort precedes).Made :=
  made.edit (.sort precedes)

end Made

end IndexedList

end ApiReference
