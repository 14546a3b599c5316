import ApiReference.Library.Basic
import ApiReference.Proofs.Store.Exactness
import ApiReference.Proofs.Text.NameOrder

/-!
# Pages by their names

The index of a library is exact, so that a page is found by its name and nothing else is
(`page?_eq_some_iff`).  Of pages that are added the first one of a name is taken in
(`page?_addPages`), and each of the others makes a finding (`size_addPages`).  A change of the pages
leaves their names and their order, a change of one page leaves all others (`page?_modify_of_ne`),
and a change that does nothing to a page leaves the library as it is (`modify_eq_self`).
-/

set_option autoImplicit false

namespace ApiReference

/-- What a change keeps of every page, it keeps also where it is meant for the page of one name. -/
theorem ClassPage.view_ite {β : Type} {view : ClassPage → β} {change : ClassPage → ClassPage}
    (name : String) (keeps : ∀ page : ClassPage, view (change page) = view page)
    (page : ClassPage) : view (if page.name = name then change page else page) = view page := by
  split
  · exact keeps page
  · rfl

namespace Library

variable {library other : Library} {name otherName : String} {page : ClassPage}
  {change : ClassPage → ClassPage} {keeps : IndexedList.KeepsName ClassPage.name change}

theorem ext (pages : library.pages = other.pages) (events : library.events = other.events)
    (enumerations : library.enumerations = other.enumerations)
    (flags : library.flags = other.flags) : library = other := by
  obtain ⟨store, made, _, _, _⟩ := library
  obtain ⟨otherStore, otherMade, _, _, _⟩ := other
  obtain rfl : store = otherStore := made.exact.eq_of_items_eq otherMade.exact pages
  obtain rfl := events
  obtain rfl := enumerations
  obtain rfl := flags
  rfl

theorem names_nodup (library : Library) : (library.pages.map ClassPage.name).Nodup :=
  library.made.exact.nodup

theorem page?_eq (library : Library) (name : String) :
    library.page? name = library.pages.find? (·.name = name) :=
  library.made.exact.find?_eq name

/-- The page of a name is the one page that has it. -/
theorem page?_eq_some_iff :
    library.page? name = some page ↔ page ∈ library.pages ∧ page.name = name :=
  library.made.exact.find?_eq_some_iff

theorem page?_isSome_iff :
    (library.page? name).isSome = true ↔ name ∈ library.pages.map ClassPage.name := by
  rw [page?_eq]
  exact find?_name_isSome_iff

/-! ## Positions of pages -/

/-- A class has a position exactly if its page stands there. -/
theorem position?_eq_some_iff {position : Nat} :
    library.position? name = some position ↔
      ∃ page, library.pages[position]? = some page ∧ page.name = name :=
  library.made.exact.position?_eq_some_iff

theorem getElem?_of_position? {position : Nat} (known : library.position? name = some position) :
    library.pages[position]? = library.page? name := by
  rw [page?, IndexedList.find?, show library.store.position? name = some position from known]
  rfl

theorem exists_page?_of_position? {position : Nat}
    (known : library.position? name = some position) : ∃ page, library.page? name = some page := by
  obtain ⟨page, standsThere, -⟩ := position?_eq_some_iff.mp known
  exact ⟨page, getElem?_of_position? known ▸ standsThere⟩

theorem page?_of_position?_eq_none (unknown : library.position? name = none) :
    library.page? name = none := by
  rw [page?, IndexedList.find?, show library.store.position? name = none from unknown]
  rfl

theorem nameAt_of_position? {position : Nat} (known : library.position? name = some position) :
    library.nameAt position = name := by
  obtain ⟨page, standsThere, rfl⟩ := position?_eq_some_iff.mp known
  rw [nameAt, standsThere]
  rfl

/-- To change the page of a class is to change the one at its position. -/
theorem modify_of_position? {position : Nat} (known : library.position? name = some position) :
    library.modify name change keeps = library.modifyAt position change keeps :=
  ext (congrArg IndexedList.items (IndexedList.modify_of_position? known)) rfl rfl rfl

/-! ## Adding pages -/

theorem pages_addPage (library : Library) (page : ClassPage) :
    (library.addPage page).pages =
      if page.name ∈ library.pages.map ClassPage.name then library.pages
      else library.pages ++ [page] :=
  library.made.exact.items_insert page

/-- The page of the name that was there before stays, and otherwise it is the one that is added. -/
theorem page?_addPage (library : Library) (page : ClassPage) (name : String) :
    (library.addPage page).page? name =
      (library.page? name).or ([page].find? (·.name = name)) :=
  library.made.exact.find?_insert page name

/-- Of the pages that are added, the first one of a name is found, unless one was there. -/
theorem page?_addPages (library : Library) (pages : List ClassPage) (name : String) :
    (library.addPages pages).1.page? name =
      (library.page? name).or (pages.find? (·.name = name)) := by
  induction pages generalizing library with
  | nil => exact Option.or_none.symm
  | cons first later ih =>
    rw [← List.singleton_append, List.find?_append, ← Option.or_assoc, ← page?_addPage]
    exact ih (library.addPage first)

theorem events_addPages (library : Library) (pages : List ClassPage) :
    (library.addPages pages).1.events = library.events := by
  induction pages generalizing library with
  | nil => rfl
  | cons first later ih => exact ih (library.addPage first)

/-- The names that are taken after pages were added. -/
theorem mem_names_addPages (library : Library) (pages : List ClassPage) (name : String) :
    name ∈ (library.addPages pages).1.pages.map ClassPage.name ↔
      name ∈ library.pages.map ClassPage.name ∨ name ∈ pages.map ClassPage.name := by
  rw [← page?_isSome_iff, page?_addPages, Option.isSome_or, Bool.or_eq_true, page?_isSome_iff,
    find?_name_isSome_iff]

theorem addPage_of_mem (taken : page.name ∈ library.pages.map ClassPage.name) :
    library.addPage page = library :=
  ext ((library.pages_addPage page).trans (if_pos taken)) rfl rfl rfl

theorem size_addPage_of_notMem (fresh : page.name ∉ library.pages.map ClassPage.name) :
    (library.addPage page).size = library.size + 1 := by
  rw [size, pages_addPage, if_neg fresh]
  exact List.length_append

/-- A page is either taken in or refused with a finding. -/
theorem size_addPages (library : Library) (pages : List ClassPage) :
    (library.addPages pages).2.length + (library.addPages pages).1.size =
      library.size + pages.length := by
  induction pages generalizing library with
  | nil => exact Nat.zero_add _
  | cons page later ih =>
    have counted := ih (library.addPage page)
    have final : (library.addPages (page :: later)).1 = ((library.addPage page).addPages later).1 :=
      rfl
    have findings : (library.addPages (page :: later)).2 =
        (library.refusal? page).toList ++ ((library.addPage page).addPages later).2 := rfl
    rw [final, findings, List.length_append, List.length_cons]
    by_cases taken : page.name ∈ library.pages.map ClassPage.name
    · have refused : (library.refusal? page).toList.length = 1 := by
        obtain ⟨kept, found⟩ := Option.isSome_iff_exists.mp (page?_isSome_iff.mpr taken)
        rw [refusal?, found]
        rfl
      rw [addPage_of_mem taken] at counted ⊢
      omega
    · have accepted : (library.refusal? page).toList.length = 0 := by
        rw [refusal?, Option.not_isSome_iff_eq_none.mp (mt page?_isSome_iff.mp taken)]
        rfl
      rw [size_addPage_of_notMem taken] at counted
      omega

theorem code_of_mem_addPages (library : Library) (pages : List ClassPage) :
    ∀ finding ∈ (library.addPages pages).2, finding.code = .duplicateClass := by
  induction pages generalizing library with
  | nil => exact List.forall_mem_nil _
  | cons page later ih =>
    intro finding member
    rcases List.mem_append.mp member with here | later
    · obtain ⟨kept, -, rfl⟩ := Option.map_eq_some_iff.mp (Option.mem_toList.mp here)
      rfl
    · exact ih _ finding later

/-! ## Changing pages -/

theorem pages_mapPages (library : Library) (change : ClassPage → ClassPage)
    (keeps : IndexedList.KeepsName ClassPage.name change) :
    (library.mapPages change keeps).pages = library.pages.map change := rfl

theorem page?_mapPages (library : Library) (change : ClassPage → ClassPage)
    (keeps : IndexedList.KeepsName ClassPage.name change) (name : String) :
    (library.mapPages change keeps).page? name = (library.page? name).map change :=
  library.store.find?_mapItems change name

theorem page?_sort (library : Library) (name : String) :
    library.sort.page? name = (library.page? name).map ClassPage.sort := by
  rw [← page?_mapPages library ClassPage.sort ClassPage.name_sort]
  exact (library.mapPages ClassPage.sort _).made.exact.find?_sort (nameLe ClassPage.name) name

/-- What a change keeps of every page, it keeps of the pages. -/
theorem map_pages_mapPages {β : Type} {view : ClassPage → β}
    (keeps : IndexedList.KeepsName ClassPage.name change)
    (keepsView : ∀ page : ClassPage, view (change page) = view page) :
    (library.mapPages change keeps).pages.map view = library.pages.map view := by
  rw [pages_mapPages, List.map_map]
  exact List.map_congr_left fun page _ => keepsView page

theorem pages_modify (library : Library) (name : String) (change : ClassPage → ClassPage)
    (keeps : IndexedList.KeepsName ClassPage.name change) :
    (library.modify name change keeps).pages =
      library.pages.map fun page => if page.name = name then change page else page :=
  library.made.exact.items_modify name change

/-- What a change keeps of every page, it keeps of the pages if it is made on one of them. -/
theorem map_pages_modify {β : Type} {view : ClassPage → β}
    (keeps : IndexedList.KeepsName ClassPage.name change)
    (keepsView : ∀ page : ClassPage, view (change page) = view page) :
    (library.modify name change keeps).pages.map view = library.pages.map view := by
  rw [pages_modify, List.map_map]
  exact List.map_congr_left fun page _ => ClassPage.view_ite name keepsView page

theorem names_modify (library : Library) (name : String) (change : ClassPage → ClassPage)
    (keeps : IndexedList.KeepsName ClassPage.name change) :
    (library.modify name change keeps).pages.map ClassPage.name =
      library.pages.map ClassPage.name :=
  map_pages_modify keeps keeps

theorem page?_modify_eq (library : Library) (name : String) (change : ClassPage → ClassPage)
    (keeps : IndexedList.KeepsName ClassPage.name change) (otherName : String) :
    (library.modify name change keeps).page? otherName =
      (library.page? otherName).map fun page => if page.name = name then change page else page :=
  library.made.exact.find?_modify name change otherName

theorem page?_modify (found : library.page? name = some page) :
    (library.modify name change keeps).page? name = some (change page) := by
  rw [page?_modify_eq, found, Option.map_some, if_pos (page?_eq_some_iff.mp found).2]

theorem page?_modify_of_ne (different : otherName ≠ name) :
    (library.modify name change keeps).page? otherName = library.page? otherName := by
  rw [page?_modify_eq]
  cases found : library.page? otherName with
  | none => rfl
  | some page =>
    have isOther : page.name ≠ name := (page?_eq_some_iff.mp found).2 ▸ different
    rw [Option.map_some, if_neg isOther]

/-- What a change does to other pages than the one it is meant for does not matter. -/
theorem modify_congr {instead : ClassPage → ClassPage}
    {insteadKeeps : IndexedList.KeepsName ClassPage.name instead}
    (found : library.page? name = some page) (same : change page = instead page) :
    library.modify name change keeps = library.modify name instead insteadKeeps := by
  refine ext ?_ rfl rfl rfl
  rw [pages_modify, pages_modify]
  refine List.map_congr_left fun candidate member => ?_
  split
  · rename_i sameName
    have isPage := page?_eq_some_iff.mpr ⟨member, sameName⟩
    rw [found] at isPage
    obtain rfl := Option.some.inj isPage
    exact same
  · rfl

/-- A change that does nothing to the page it is meant for leaves the library as it is. -/
theorem modify_eq_self (found : library.page? name = some page) (same : change page = page) :
    library.modify name change keeps = library := by
  have keepsId : IndexedList.KeepsName ClassPage.name id := fun _ => rfl
  have doesNothing : library.modify name change keeps = library.modify name id keepsId :=
    modify_congr found same
  rw [doesNothing]
  refine ext ?_ rfl rfl rfl
  rw [pages_modify]
  simp only [id_eq, ite_self, List.map_id']

end Library

end ApiReference
