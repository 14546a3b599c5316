/-!
# Sorted lists of names

Names are ordered by their characters' code points, which is the order of strings in core.  A list
of names that is reported as a set is kept strictly increasing: `insertName` puts one name at its
place and leaves a list alone that holds it already, and `sortedNames` inserts a whole list.
-/

namespace ApiReference

set_option autoImplicit false

/-- Put a name at its place in an increasing list, unless it is there. -/
def insertName (name : String) : List String → List String
  | [] => [name]
  | first :: rest =>
    if name < first then name :: first :: rest
    else if name = first then first :: rest
    else first :: insertName name rest

/-- The names of a list in increasing order, each once. -/
def sortedNames (names : List String) : List String :=
  names.foldr insertName []

/-- Inserting adds the name and nothing else. -/
theorem mem_insertName {name other : String} {names : List String} :
    other ∈ insertName name names ↔ other = name ∨ other ∈ names := by
  induction names with
  | nil => simp [insertName]
  | cons first rest ih =>
    simp only [insertName]
    split
    · simp
    · split
      · rename_i equal
        simp [equal]
      · simp only [List.mem_cons, ih]
        grind

@[simp]
theorem mem_sortedNames {name : String} {names : List String} :
    name ∈ sortedNames names ↔ name ∈ names := by
  induction names with
  | nil => simp [sortedNames]
  | cons first rest ih =>
    have step : sortedNames (first :: rest) = insertName first (sortedNames rest) := rfl
    rw [step, mem_insertName, ih, List.mem_cons]

/-- One item's name is not behind the other's. -/
def nameLe {α : Type} (name : α → String) (left right : α) : Bool :=
  name left ≤ name right

/-- Order a list by a name of its members; equal names keep their order. -/
def sortByName {α : Type} (name : α → String) (items : List α) : List α :=
  items.mergeSort (nameLe name)

end ApiReference
