import ApiReference.Proofs.Library.Ancestors
import ApiReference.Proofs.Library.Filling
import Mathlib.Algebra.BigOperators.Group.List.Basic
import Mathlib.Algebra.GroupWithZero.Nat
import Mathlib.Data.List.Zip

/-!
# Borrowed descriptions

A method without a description takes the first one that there is among the overloads of its class
and then of the ancestors (`describedAs`).  Since the line of a class holds those of its ancestors,
no ancestor can take a description for an overload that the class itself does not find: where a
class finds nothing before, it finds nothing afterwards (`descriptionsInLine_fillDescriptions`).  So
descriptions are filled in at one go, whatever circles the bases run in
(`fillDescriptions_atOnce`).
-/

set_option autoImplicit false

namespace ApiReference

variable {library : Library} {page : ClassPage} {method : Method} {name description : String}

/-- How many methods of a page differ from the method that another page has in their place. -/
def ClassPage.changedMethods (before after : ClassPage) : Nat :=
  (before.methods.zip after.methods).countP fun (earlier, later) => earlier ≠ later

theorem eq_of_mem_zip_self {α : Type} {items : List α} {left right : α}
    (member : (left, right) ∈ items.zip items) : left = right := by
  have pairs : items.zip items = items.map fun item => (item, item) := by
    rw [List.map_prod_left_eq_zip, List.map_id']
  rw [pairs] at member
  obtain ⟨item, -, same⟩ := List.mem_map.mp member
  obtain ⟨rfl, rfl⟩ := Prod.mk.inj same
  rfl

namespace Library

/-! ## What there is to borrow -/

/-- The descriptions of the methods of a name, in a class and then in its ancestors, the nearest
first. -/
def descriptionsInLine (library : Library) (page : ClassPage) (name : String) : List String :=
  (page :: library.ancestors page.name).flatMap fun page =>
    (page.methodsNamed name).map Method.description

/-- The description that there is of a method of a class: its own, or else the first among the
overloads of the class and then of its ancestors; empty if there is none. -/
def describedAs (library : Library) (page : ClassPage) (method : Method) : String :=
  if method.description = "" then
    ((library.descriptionsInLine page method.name).find? (· ≠ "")).getD ""
  else method.description

theorem mem_descriptionsInLine_iff :
    description ∈ library.descriptionsInLine page name ↔
      ∃ other ∈ page :: library.ancestors page.name,
        ∃ method ∈ other.methods, method.name = name ∧ method.description = description := by
  simp only [descriptionsInLine, ClassPage.methodsNamed, List.mem_flatMap, List.mem_map,
    List.mem_filter, decide_eq_true_eq, and_assoc]

theorem borrowedDescription?_eq (library : Library) (page : ClassPage) (name : String) :
    library.borrowedDescription? page name =
      (library.descriptionsInLine page name).find? (· ≠ "") := by
  rw [descriptionsInLine, List.find?_flatMap, List.findSome?_cons, borrowedDescription?,
    ClassPage.descriptionFor?]
  cases ((page.methodsNamed name).map Method.description).find? (· ≠ "") <;> rfl

/-- Only a method without a description gets one, and what it gets is not empty. -/
theorem of_filledDescription?_eq_some
    (filled : library.filledDescription? page method = some description) :
    method.description = "" ∧ description ≠ "" := by
  rw [filledDescription?, borrowedDescription?_eq] at filled
  split at filled
  · rename_i undescribed
    exact ⟨undescribed, by simpa using List.find?_some filled⟩
  · cases filled

theorem describedAs_eq (library : Library) (page : ClassPage) (method : Method) :
    library.describedAs page method =
      (library.filledDescription? page method).getD method.description := by
  rw [describedAs, filledDescription?, borrowedDescription?_eq]
  split
  · rename_i undescribed
    rw [undescribed]
  · rfl

/-- Filling a page gives its methods the descriptions that there are of them. -/
theorem fillPage_eq (library : Library) (page : ClassPage) :
    library.fillPage page =
      { page with
        methods := page.methods.map fun method =>
          { method with description := library.describedAs page method } } := by
  have methods : (library.fillPage page).methods = page.methods.map fun method =>
      { method with description := library.describedAs page method } := by
    refine List.map_congr_left fun method _ => ?_
    rw [describedAs_eq]
    cases library.filledDescription? page method <;> rfl
  rw [← methods]
  rfl

/-! ## Filling in again -/

/-- A method is left without a description exactly if there is none in the line of its class. -/
theorem describedAs_eq_empty_iff (member : method ∈ page.methods) :
    library.describedAs page method = "" ↔
      ∀ description ∈ library.descriptionsInLine page method.name, description = "" := by
  have own : method.description ∈ library.descriptionsInLine page method.name :=
    mem_descriptionsInLine_iff.mpr ⟨page, List.mem_cons_self, method, member, rfl, rfl⟩
  have nothing : (library.descriptionsInLine page method.name).find? (· ≠ "") = none ↔
      ∀ description ∈ library.descriptionsInLine page method.name, description = "" := by
    simp
  rw [← nothing, describedAs]
  constructor
  · intro empty
    split at empty
    · cases found : (library.descriptionsInLine page method.name).find? (· ≠ "") with
      | none => rfl
      | some description =>
        rw [found, Option.getD_some] at empty
        exact absurd empty (by simpa using List.find?_some found)
    · rename_i described
      exact absurd empty described
  · intro none
    rw [none, if_pos (nothing.mp none _ own), Option.getD_none]

theorem ancestors_fillDescriptions (library : Library) (name : String) :
    library.fillDescriptions.ancestors name = (library.ancestors name).map library.fillPage := by
  have keepsBase (page : ClassPage) : (library.fillPage page).base? = page.base? := rfl
  rw [fillDescriptions_eq]
  exact ancestors_mapPages library.name_fillPage keepsBase library name

/-- A class that finds no description of a method before finds none afterwards, for what its
ancestors find it finds itself. -/
theorem descriptionsInLine_fillDescriptions (known : page ∈ library.pages)
    (undescribed : ∀ description ∈ library.descriptionsInLine page name, description = "") :
    ∀ description ∈ library.fillDescriptions.descriptionsInLine (library.fillPage page) name,
      description = "" := by
  intro description found
  obtain ⟨filled, here, method', member', rfl, rfl⟩ := mem_descriptionsInLine_iff.mp found
  have line : library.fillPage page :: library.fillDescriptions.ancestors page.name =
      (page :: library.ancestors page.name).map library.fillPage := by
    rw [ancestors_fillDescriptions]
    rfl
  obtain ⟨other, above, rfl⟩ := List.mem_map.mp (line ▸ here)
  rw [fillPage_eq] at member'
  obtain ⟨method, member, rfl⟩ := List.mem_map.mp member'
  refine (describedAs_eq_empty_iff member).mpr fun description found => undescribed description ?_
  obtain ⟨further, beyond, source⟩ := mem_descriptionsInLine_iff.mp found
  exact mem_descriptionsInLine_iff.mpr ⟨further, line_subset known above beyond, source⟩

/-- After filling, the descriptions of methods are those that there are of them. -/
theorem describedAs_fillDescriptions (known : page ∈ library.pages)
    (member : method ∈ (library.fillPage page).methods) :
    library.fillDescriptions.describedAs (library.fillPage page) method = method.description := by
  by_cases empty : method.description = ""
  · rw [empty, describedAs_eq_empty_iff member]
    rw [fillPage_eq] at member
    obtain ⟨before, memberBefore, rfl⟩ := List.mem_map.mp member
    exact descriptionsInLine_fillDescriptions known
      ((describedAs_eq_empty_iff memberBefore).mp empty)
  · rw [describedAs, if_neg empty]

theorem fillPage_fillPage (known : page ∈ library.pages) :
    library.fillDescriptions.fillPage (library.fillPage page) = library.fillPage page := by
  have methods : (library.fillPage page).methods.map (fun method =>
      { method with
        description := library.fillDescriptions.describedAs (library.fillPage page) method }) =
      (library.fillPage page).methods := by
    refine (List.map_congr_left fun method member => ?_).trans (List.map_id' _)
    rw [describedAs_fillDescriptions known member]
  rw [library.fillDescriptions.fillPage_eq, methods]

theorem fillDescriptions_fillDescriptions (library : Library) :
    library.fillDescriptions.fillDescriptions = library.fillDescriptions := by
  have beside := library.fillDescriptions.beside_fillDescriptions
  refine Library.ext ?_ beside.1 beside.2.1 beside.2.2
  rw [pages_fillDescriptions, pages_fillDescriptions, List.map_map]
  exact List.map_congr_left fun page known => fillPage_fillPage known

/-! ## Counting -/

/-- How many methods of a library differ from the method that another library has in their place. -/
def changedMethods (before after : Library) : Nat :=
  ((before.pages.zip after.pages).map fun (earlier, later) => earlier.changedMethods later).sum

theorem changedMethods_self (library : Library) : library.changedMethods library = 0 := by
  refine List.sum_eq_zero fun count counted => ?_
  obtain ⟨⟨page, samePage⟩, pages, rfl⟩ := List.mem_map.mp counted
  obtain rfl : page = samePage := eq_of_mem_zip_self pages
  refine List.countP_eq_zero.mpr fun (method, sameMethod) methods => ?_
  obtain rfl : method = sameMethod := eq_of_mem_zip_self methods
  simp

/-- A method changes exactly if a description is filled in. -/
theorem describedAs_ne_iff (library : Library) (page : ClassPage) (method : Method) :
    method ≠ { method with description := library.describedAs page method } ↔
      (library.filledDescription? page method).isSome = true := by
  rw [describedAs_eq]
  cases filled : library.filledDescription? page method with
  | none => simp
  | some description =>
    obtain ⟨undescribed, described⟩ := of_filledDescription?_eq_some filled
    refine iff_of_true (fun same => described ?_) rfl
    exact (congrArg Method.description same).symm.trans undescribed

theorem changedMethods_fillPage (library : Library) (page : ClassPage) :
    page.changedMethods (library.fillPage page) =
      page.methods.countP fun method => (library.filledDescription? page method).isSome := by
  rw [fillPage_eq, ClassPage.changedMethods, ← List.map_prod_left_eq_zip, List.countP_map]
  refine List.countP_congr fun method _ => ?_
  rw [← describedAs_ne_iff]
  exact decide_eq_true_iff

theorem fillableCount_eq (library : Library) :
    library.fillableCount = library.changedMethods library.fillDescriptions := by
  rw [changedMethods, pages_fillDescriptions, ← List.map_prod_left_eq_zip, List.map_map,
    fillableCount_eq_sum]
  simp only [Function.comp_def, changedMethods_fillPage]

/-- Descriptions are filled in at one go.  Nothing changes but the descriptions of methods: each
method gets the one that there is of it, and the order of the classes has no part in that.  The
methods that change are counted, and when descriptions are filled in again there are none. -/
theorem fillDescriptions_atOnce (library : Library) :
    let filled := library.fillDescriptions
    (filled.events = library.events ∧ filled.enumerations = library.enumerations ∧
      filled.flags = library.flags ∧
      filled.pages = library.pages.map fun page =>
        { page with
          methods := page.methods.map fun method =>
            { method with description := library.describedAs page method } }) ∧
    (∀ other : Library, library.SameLookup other → filled.SameLookup other.fillDescriptions) ∧
    library.fillableCount = library.changedMethods filled ∧
    filled.fillDescriptions = filled ∧ filled.fillableCount = 0 := by
  obtain ⟨events, enumerations, flags⟩ := library.beside_fillDescriptions
  refine ⟨⟨events, enumerations, flags, ?_⟩, fun other same => same.fillDescriptions,
    library.fillableCount_eq, library.fillDescriptions_fillDescriptions, ?_⟩
  · rw [pages_fillDescriptions]
    exact List.map_congr_left fun page _ => library.fillPage_eq page
  · rw [fillableCount_eq, fillDescriptions_fillDescriptions, changedMethods_self]

end Library

end ApiReference
