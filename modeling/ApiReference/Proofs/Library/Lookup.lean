import ApiReference.Build
import ApiReference.Proofs.Library.Filling

/-!
# What is found in a library

What comments, ancestors and borrowed descriptions do to a library depends on what is found in it by
name, and not on the order in which its pages stand.  `Library.SameLookup` says that two libraries
differ in that order alone.  All phases of a build before the scan of the sources keep it, and have
the same findings in both.
-/

set_option autoImplicit false

namespace ApiReference

/-! ## Lineages -/

namespace ClassPage

theorem find?_without (name other : String) (pages : List ClassPage) :
    (without name pages).find? (·.name = other) =
      if other = name then none else pages.find? (·.name = other) := by
  rw [without, List.find?_filter]
  split
  · rename_i same
    subst same
    simp
  · rename_i different
    congr 1
    funext page
    by_cases found : page.name = other <;> simp [found, different]

/-- The walk goes on at the page of the base, which it does not come to again. -/
theorem lineage_some (pages : List ClassPage) (name : String) :
    lineage pages (some name) =
      ((pages.find? (·.name = name)).map fun page =>
        page :: lineage (without name pages) page.base?).getD [] := by
  rw [lineage]
  split
  · rename_i missing
    rw [missing]
    rfl
  · rename_i page found
    rw [found]
    rfl

/-- The walk from a base on depends only on what is found by each name. -/
theorem lineage_congr {pages others : List ClassPage} (base? : Option String)
    (same : ∀ name, pages.find? (·.name = name) = others.find? (·.name = name)) :
    lineage pages base? = lineage others base? := by
  induction pages, base? using lineage.induct generalizing others with
  | case1 pages => rw [lineage, lineage]
  | case2 pages name missing =>
    rw [lineage_some, lineage_some, ← same, missing, Option.map_none, Option.map_none]
  | case3 pages name page found ih =>
    have sameRest : ∀ other, (without name pages).find? (·.name = other) =
        (without name others).find? (·.name = other) := by
      intro other
      rw [find?_without, find?_without, same]
    rw [lineage_some, lineage_some, ← same, found, Option.map_some, Option.map_some, ih sameRest]

end ClassPage

/-! ## Libraries in another order -/

namespace Library

theorem findings_addComments_cons (library : Library) (expanded : ExpandedTable)
    (comment : ListedComment) (later : List ListedComment) :
    (library.addComments expanded (comment :: later)).2 =
      ((library.addComment comment.className comment.method.toMethod expanded).2.finding?
          comment.className comment.method.name).toList ++
        ((library.addComment comment.className comment.method.toMethod expanded).1.addComments
          expanded later).2 := rfl

/-- Libraries that differ at most in the order of their pages. -/
structure SameLookup (left right : Library) : Prop where
  page? : left.page? = right.page?
  events : left.events = right.events
  enumerations : left.enumerations = right.enumerations
  flags : left.flags = right.flags

namespace SameLookup

variable {left right : Library}

theorem ancestors (same : left.SameLookup right) : left.ancestors = right.ancestors := by
  funext name
  rw [Library.ancestors, Library.ancestors, same.page?]
  cases right.page? name with
  | none => rfl
  | some page =>
    refine ClassPage.lineage_congr page.base? fun other => ?_
    rw [ClassPage.find?_without, ClassPage.find?_without]
    rw [← page?_eq, ← page?_eq, same.page?]

theorem mapPages (same : left.SameLookup right) (change : ClassPage → ClassPage)
    (keeps : IndexedList.KeepsName ClassPage.name change) :
    (left.mapPages change keeps).SameLookup (right.mapPages change keeps) where
  page? := by
    funext name
    rw [page?_mapPages, page?_mapPages, same.page?]
  events := same.events
  enumerations := same.enumerations
  flags := same.flags

theorem modify {change : ClassPage → ClassPage}
    {keeps : IndexedList.KeepsName ClassPage.name change} (same : left.SameLookup right)
    (name : String) :
    (left.modify name change keeps).SameLookup (right.modify name change keeps) where
  page? := by
    funext otherName
    rw [page?_modify_eq, page?_modify_eq, same.page?]
  events := same.events
  enumerations := same.enumerations
  flags := same.flags

/-- A comment is added in the same way. -/
theorem addComment (same : left.SameLookup right) (className : String) (comment : Method)
    (expanded : ExpandedTable) :
    (left.addComment className comment expanded).1.SameLookup
        (right.addComment className comment expanded).1 ∧
      (left.addComment className comment expanded).2 =
        (right.addComment className comment expanded).2 := by
  rw [Library.addComment, Library.addComment, same.page?, same.ancestors]
  cases right.page? className with
  | none => exact ⟨same, rfl⟩
  | some page =>
    dsimp only
    cases page.matching? (comment.normalize expanded page.scope).signature with
    | some found =>
      dsimp only
      exact ⟨same.modify className, rfl⟩
    | none =>
      dsimp only
      cases (right.ancestors className).findSome?
          (·.matching? (comment.normalize expanded page.scope).signature) with
      | some found =>
        dsimp only
        exact ⟨same.modify className, rfl⟩
      | none => exact ⟨same, rfl⟩

theorem addComments (same : left.SameLookup right) (expanded : ExpandedTable)
    (comments : List ListedComment) :
    (left.addComments expanded comments).1.SameLookup (right.addComments expanded comments).1 ∧
      (left.addComments expanded comments).2 = (right.addComments expanded comments).2 := by
  induction comments generalizing left right with
  | nil => exact ⟨same, rfl⟩
  | cons comment later ih =>
    obtain ⟨changed, outcome⟩ :=
      same.addComment comment.className comment.method.toMethod expanded
    obtain ⟨final, findings⟩ := ih changed
    refine ⟨final, ?_⟩
    rw [findings_addComments_cons, findings_addComments_cons, findings, outcome]

theorem fillDescriptions (same : left.SameLookup right) :
    left.fillDescriptions.SameLookup right.fillDescriptions := by
  have samePage : left.fillPage = right.fillPage := by
    funext page
    simp only [fillPage, filledDescription?, borrowedDescription?, same.ancestors]
  rw [fillDescriptions_eq, fillDescriptions_eq]
  simp only [samePage]
  exact same.mapPages right.fillPage right.name_fillPage

end SameLookup

end Library

end ApiReference
