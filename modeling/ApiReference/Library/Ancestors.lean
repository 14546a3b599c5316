import ApiReference.Library.Basic

/-!
# Ancestors

The ancestors of a class are its base, the base of that, and so on.  Nothing keeps the bases from
running in a circle or from naming a class that is not there, so the walk takes every class it comes
to out of the classes it may still come to, and stops at a name it does not find among them.

Methods without a description borrow one: of an overload beside them, or else of a method of the
same name in the nearest ancestor that has one.
-/

namespace ApiReference

set_option autoImplicit false

namespace ClassPage

/-- The pages of a list without those of one name. -/
def without (name : String) (pages : List ClassPage) : List ClassPage :=
  pages.filter (·.name ≠ name)

/-- Taking out a name that occurs leaves fewer pages. -/
theorem length_without_lt {name : String} {pages : List ClassPage} {page : ClassPage}
    (found : pages.find? (·.name = name) = some page) :
    (without name pages).length < pages.length := by
  rw [without, List.length_filter_lt_length_iff_exists]
  refine ⟨page, List.mem_of_find?_eq_some found, ?_⟩
  have equal := List.find?_some found
  simp_all

/-- The pages one comes to from a base on, as far as they are among those given. -/
def lineage (pages : List ClassPage) (base? : Option String) : List ClassPage :=
  match base? with
  | none => []
  | some name =>
    match _found : pages.find? (·.name = name) with
    | none => []
    | some page => page :: lineage (without name pages) page.base?
termination_by pages.length
decreasing_by exact length_without_lt ‹_›

end ClassPage

/-- A description for the method at one position of the page at another. -/
structure DescriptionFill where
  pagePosition : Nat
  methodPosition : Nat
  description : String
deriving DecidableEq, Repr

/-- Write a description where it belongs on a page. -/
def DescriptionFill.onPage (fill : DescriptionFill) (page : ClassPage) : ClassPage :=
  { page with
    methods := page.methods.modify fill.methodPosition
      ({ · with description := fill.description }) }

@[simp]
theorem DescriptionFill.name_onPage (fill : DescriptionFill) (page : ClassPage) :
    (fill.onPage page).name = page.name := rfl

namespace Library

/-- The ancestors of a class, the nearest first. -/
def ancestors (library : Library) (name : String) : List ClassPage :=
  match library.page? name with
  | none => []
  | some page => ClassPage.lineage (ClassPage.without name library.pages) page.base?

/-- The description that a method without one may borrow. -/
def borrowedDescription? (library : Library) (page : ClassPage) (method : String) :
    Option String :=
  page.descriptionFor? method <|>
    (library.ancestors page.name).findSome? (·.descriptionFor? method)

/-- The description that a method of a page gets, if it has none and there is one to borrow. -/
def filledDescription? (library : Library) (page : ClassPage) (method : Method) :
    Option String :=
  if method.description = "" then library.borrowedDescription? page method.name else none

/-- The descriptions that the methods of a page at a position borrow. -/
def pageFills (library : Library) (page : ClassPage) (pagePosition : Nat) :
    List DescriptionFill :=
  page.methods.zipIdx.filterMap fun (method, methodPosition) =>
    (library.filledDescription? page method).map (⟨pagePosition, methodPosition, ·⟩)

/-- The descriptions that all methods borrow. -/
def descriptionFills (library : Library) : List DescriptionFill :=
  library.pages.zipIdx.flatMap fun (page, pagePosition) => library.pageFills page pagePosition

/-- Write a description where it belongs. -/
def fillAt (library : Library) (fill : DescriptionFill) : Library :=
  library.modifyAt fill.pagePosition fill.onPage fill.name_onPage

/-- Give every method without a description the one it borrows, and return how many got one.  What
is borrowed is read from the library as it was before. -/
def fillAndCount (library : Library) : Library × Nat :=
  let fills := library.descriptionFills
  (fills.foldl fillAt library, fills.length)

/-- The library with its descriptions filled in. -/
def fillDescriptions (library : Library) : Library :=
  library.fillAndCount.1

/-- How many methods get a description when they are filled in. -/
def fillableCount (library : Library) : Nat :=
  library.fillAndCount.2

end Library

end ApiReference
