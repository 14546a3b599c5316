import ApiReference.Library.Ancestors
import ApiReference.Proofs.Library.Pages
import Mathlib.Algebra.BigOperators.Group.List.Basic
import Mathlib.Algebra.GroupWithZero.Nat

/-!
# Filling at positions

The descriptions that methods borrow are collected first, each with the positions of a page and of a
method on it, and then written one after the other.  Since nothing moves while they are written, all
of it comes to one pass over the pages (`fillDescriptions_eq`), and what is counted are the methods
that have something to borrow (`fillableCount_eq_sum`).
-/

set_option autoImplicit false

namespace ApiReference

section Lists

variable {α β : Type}

/-- Changes at one position are made on the item that stands there, one after the other. -/
theorem foldl_modify {positionOf : β → Nat} {position : Nat} (change : β → α → α)
    {steps : List β} (here : ∀ step ∈ steps, positionOf step = position) (items : List α) :
    steps.foldl (fun items step => items.modify (positionOf step) (change step)) items =
      items.modify position fun item => steps.foldl (fun item step => change step item) item := by
  induction steps generalizing items with
  | nil => exact (List.modify_id position items).symm
  | cons step later ih =>
    obtain ⟨first, others⟩ := List.forall_mem_cons.mp here
    rw [List.foldl_cons, ih others, first, List.modify_modify_eq]
    rfl

theorem modify_append_length (change : α → α) (front : List α) (item : α) (later : List α) :
    (front ++ item :: later).modify front.length change = front ++ change item :: later := by
  induction front with
  | nil => rfl
  | cons first between ih => exact congrArg (first :: ·) ih

section OwnPosition

variable (step : α × Nat → α → α) {final : α → α}
  (each : ∀ item position, step (item, position) item = final item)

include each

/-- The part in front is done, and the rest is changed from its first item on. -/
theorem foldl_modify_zipIdx_append (rest done : List α) :
    (rest.zipIdx done.length).foldl (fun items entry => items.modify entry.2 (step entry))
        (done ++ rest) = done ++ rest.map final := by
  induction rest generalizing done with
  | nil => rfl
  | cons item later ih =>
    have after := ih (done ++ [final item])
    rw [List.length_append, List.append_assoc, List.append_assoc] at after
    rw [List.zipIdx_cons, List.foldl_cons, modify_append_length, each]
    exact after

/-- To change every item at its own position is to change all of them. -/
theorem foldl_modify_zipIdx (items : List α) :
    items.zipIdx.foldl (fun changed entry => changed.modify entry.2 (step entry)) items =
      items.map final :=
  foldl_modify_zipIdx_append step each items []

end OwnPosition

end Lists

namespace Library

variable {library : Library} {page : ClassPage}

/-- Give the methods of a page the descriptions they borrow. -/
def fillPage (library : Library) (page : ClassPage) : ClassPage :=
  { page with
    methods := page.methods.map fun method =>
      match library.filledDescription? page method with
      | some description => { method with description }
      | none => method }

theorem name_fillPage (library : Library) (page : ClassPage) :
    (library.fillPage page).name = page.name := rfl

theorem methods_foldl_onPage (fills : List DescriptionFill) (page : ClassPage) :
    fills.foldl (fun page fill => fill.onPage page) page =
      { page with
        methods := fills.foldl (fun methods fill =>
          methods.modify fill.methodPosition ({ · with description := fill.description }))
            page.methods } := by
  induction fills generalizing page with
  | nil => rfl
  | cons fill later ih => exact ih (fill.onPage page)

/-- Writing what the methods of a page borrow is filling the page. -/
theorem foldl_pageFills (library : Library) (page : ClassPage) (position : Nat) :
    (library.pageFills page position).foldl (fun page fill => fill.onPage page) page =
      library.fillPage page := by
  rw [methods_foldl_onPage, fillPage, pageFills, List.foldl_filterMap]
  congr 1
  refine Eq.trans ?_ (foldl_modify_zipIdx (fun entry changed =>
    match library.filledDescription? page entry.1 with
    | some description => { changed with description }
    | none => changed) (fun _ _ => rfl) page.methods)
  congr 1
  funext methods ⟨method, methodPosition⟩
  dsimp only
  cases library.filledDescription? page method with
  | none => exact (List.modify_id methodPosition methods).symm
  | some description => rfl

theorem pages_foldl_fillAt (library : Library) (fills : List DescriptionFill) :
    (fills.foldl fillAt library).pages =
      fills.foldl (fun pages fill => pages.modify fill.pagePosition fill.onPage) library.pages := by
  induction fills generalizing library with
  | nil => rfl
  | cons fill later ih => exact ih (library.fillAt fill)

theorem pagePosition_of_mem_pageFills {position : Nat} :
    ∀ fill ∈ library.pageFills page position, fill.pagePosition = position := by
  intro fill member
  obtain ⟨place, -, filled⟩ := List.mem_filterMap.mp member
  obtain ⟨description, -, rfl⟩ := Option.map_eq_some_iff.mp filled
  rfl

theorem pages_fillDescriptions (library : Library) :
    library.fillDescriptions.pages = library.pages.map library.fillPage := by
  have each (pages : List ClassPage) (page : ClassPage) (position : Nat) :
      (library.pageFills page position).foldl
          (fun pages fill => pages.modify fill.pagePosition fill.onPage) pages =
        pages.modify position fun changed =>
          (library.pageFills page position).foldl (fun page fill => fill.onPage page) changed :=
    foldl_modify (fun fill => fill.onPage) pagePosition_of_mem_pageFills pages
  rw [fillDescriptions, fillAndCount, pages_foldl_fillAt, descriptionFills, List.foldl_flatMap]
  simp only [each]
  exact foldl_modify_zipIdx _ library.foldl_pageFills library.pages

/-- What stands beside the pages is not filled. -/
theorem beside_fillDescriptions (library : Library) :
    library.fillDescriptions.events = library.events ∧
      library.fillDescriptions.enumerations = library.enumerations ∧
      library.fillDescriptions.flags = library.flags := by
  have beside (fills : List DescriptionFill) : ∀ before : Library,
      (fills.foldl fillAt before).events = before.events ∧
        (fills.foldl fillAt before).enumerations = before.enumerations ∧
        (fills.foldl fillAt before).flags = before.flags := by
    induction fills with
    | nil => exact fun _ => ⟨rfl, rfl, rfl⟩
    | cons fill later ih => exact fun before => ih (before.fillAt fill)
  exact beside library.descriptionFills library

/-- To fill the descriptions in is to fill every page. -/
theorem fillDescriptions_eq (library : Library) :
    library.fillDescriptions = library.mapPages library.fillPage library.name_fillPage := by
  obtain ⟨events, enumerations, flags⟩ := library.beside_fillDescriptions
  exact Library.ext library.pages_fillDescriptions events enumerations flags

theorem length_pageFills (library : Library) (page : ClassPage) (position : Nat) :
    (library.pageFills page position).length =
      page.methods.countP fun method => (library.filledDescription? page method).isSome := by
  rw [pageFills, List.length_filterMap_eq_countP]
  simp only [Option.isSome_map]
  conv_rhs => rw [← List.zipIdx_map_fst 0 page.methods, List.countP_map]
  rfl

/-- There are as many descriptions as methods that borrow one. -/
theorem fillableCount_eq_sum (library : Library) :
    library.fillableCount = (library.pages.map fun page =>
      page.methods.countP fun method => (library.filledDescription? page method).isSome).sum := by
  rw [fillableCount, fillAndCount, descriptionFills, List.length_flatMap]
  simp only [length_pageFills]
  conv_rhs => rw [← List.zipIdx_map_fst 0 library.pages, List.map_map]
  rfl

end Library

end ApiReference
