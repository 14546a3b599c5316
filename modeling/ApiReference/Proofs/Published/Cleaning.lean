import ApiReference.Published.Publish
import Mathlib.Data.List.Destutter

/-!
# Clean descriptions

Cleaning makes one space of every run of spaces.  Seen as the removal of stutter, where nothing but
a space behind a space is stutter (`toList_cleanDescription`), it leaves a text of single spaces and
leaves such a text alone (`cleanDescription_eq_self_iff`), so that cleaning twice is cleaning once.
All other characters stay in their order (`filter_cleanDescription`), and only what was empty comes
out empty (`cleanDescription_eq_empty_iff`).

What accessors say is cleaned before it goes to a property, and so no description in a published
class holds a doubled space, whoever said it (`ClassPage.hasSingleSpaces_publish`).
-/

set_option autoImplicit false

namespace ApiReference

/-! ## Single spaces -/

/-- The characters are not both spaces. -/
def NotBothSpaces (first second : Char) : Prop :=
  first ≠ ' ' ∨ second ≠ ' '

instance : DecidableRel NotBothSpaces :=
  fun first second => inferInstanceAs (Decidable (first ≠ ' ' ∨ second ≠ ' '))

/-- No space of the text stands behind another. -/
def SingleSpaced (text : String) : Prop :=
  text.toList.IsChain NotBothSpaces

/-- Collapsing goes on from the last character that was kept. -/
theorem cons_collapseSpaces (kept : Char) (following : List Char) :
    kept :: collapseSpaces (kept = ' ') following = following.destutter' NotBothSpaces kept := by
  induction following generalizing kept with
  | nil => rfl
  | cons next later ih =>
    by_cases doubled : kept = ' ' ∧ next = ' '
    · obtain ⟨rfl, rfl⟩ := doubled
      rw [List.destutter'_cons_neg _ (by simp [NotBothSpaces]), ← ih]
      rfl
    · rw [List.destutter'_cons_pos _ (by rwa [NotBothSpaces, ← not_and_or]), ← ih, collapseSpaces]
      by_cases space : next = ' '
      · have behindOther : kept ≠ ' ' := fun before => doubled ⟨before, space⟩
        simp [space, behindOther]
      · simp [space]

/-- Cleaning removes the spaces that stand behind a space. -/
theorem toList_cleanDescription (text : String) :
    (cleanDescription text).toList = text.toList.destutter NotBothSpaces := by
  rw [cleanDescription, String.toList_ofList]
  cases text.toList with
  | nil => rfl
  | cons first later =>
    rw [List.destutter_cons', ← cons_collapseSpaces, collapseSpaces]
    split
    · rename_i space
      simp [space]
    · rename_i noSpace
      simp [noSpace]

theorem singleSpaced_cleanDescription (text : String) : SingleSpaced (cleanDescription text) := by
  rw [SingleSpaced, toList_cleanDescription]
  exact List.isChain_destutter _ text.toList

/-- A text is clean exactly if its spaces are single. -/
theorem cleanDescription_eq_self_iff {text : String} :
    cleanDescription text = text ↔ SingleSpaced text := by
  rw [← String.toList_inj, toList_cleanDescription]
  exact List.destutter_eq_self_iff _ text.toList

theorem cleanDescription_cleanDescription (text : String) :
    cleanDescription (cleanDescription text) = cleanDescription text :=
  cleanDescription_eq_self_iff.mpr (singleSpaced_cleanDescription text)

/-- Cleaning leaves nothing of a text only if there was nothing. -/
theorem cleanDescription_eq_empty_iff {text : String} : cleanDescription text = "" ↔ text = "" := by
  rw [← String.toList_eq_nil_iff, ← String.toList_eq_nil_iff, toList_cleanDescription,
    List.destutter_eq_nil]

/-- What is not a space stays. -/
theorem filter_collapseSpaces (afterSpace : Bool) (characters : List Char) :
    (collapseSpaces afterSpace characters).filter (· ≠ ' ') = characters.filter (· ≠ ' ') := by
  induction characters generalizing afterSpace with
  | nil => rfl
  | cons first later ih =>
    rw [collapseSpaces]
    split
    · rename_i space
      rw [List.filter_cons_of_neg (by simpa using space), ← ih true]
      cases afterSpace with
      | true => rfl
      | false => exact List.filter_cons_of_neg (by simpa using space)
    · rename_i noSpace
      rw [List.filter_cons_of_pos (by simpa using noSpace),
        List.filter_cons_of_pos (by simpa using noSpace), ih]

theorem filter_cleanDescription (text : String) :
    (cleanDescription text).toList.filter (· ≠ ' ') = text.toList.filter (· ≠ ' ') := by
  rw [cleanDescription, String.toList_ofList, filter_collapseSpaces]

/-! ## Published descriptions -/

section Accessors

variable {good : String → Prop} {properties described : List PublishedProperty}
  {method : PublishedMethod} {methods : List PublishedMethod}

/-- What is true of what a property says and of what an accessor says stays true. -/
theorem description_describedBy {property : PublishedProperty} (access : Access)
    (own : good property.description) {description : String} (said : good description) :
    good (property.describedBy access description).description := by
  cases access <;> rw [PublishedProperty.describedBy] <;> split <;> assumption

theorem description_foldAccessor? (own : ∀ property ∈ properties, good property.description)
    (said : good method.description) (folded : foldAccessor? method properties = some described) :
    ∀ property ∈ described, good property.description := by
  simp only [foldAccessor?, Option.bind_eq_bind, Option.bind_eq_some_iff] at folded
  obtain ⟨name, -, accessed, -, applies⟩ := folded
  split at applies
  · obtain rfl := Option.some.inj applies
    refine List.forall_mem_map.mpr fun property member => ?_
    split
    · exact description_describedBy name.access (own property member) said
    · exact own property member
  · cases applies

/-- Folding accessors makes no description but those that there are, and no method. -/
theorem description_foldAccessors (own : ∀ property ∈ properties, good property.description)
    (said : ∀ method ∈ methods, good method.description) :
    (∀ property ∈ (foldAccessors properties methods).1, good property.description) ∧
      (foldAccessors properties methods).2 ⊆ methods := by
  fun_induction foldAccessors properties methods with
  | case1 properties => exact ⟨own, List.Subset.refl []⟩
  | case2 properties method later described folded ih =>
    obtain ⟨here, there⟩ := List.forall_mem_cons.mp said
    obtain ⟨descriptions, kept⟩ := ih (description_foldAccessor? own here folded) there
    exact ⟨descriptions, List.Subset.trans kept (List.subset_cons_self method later)⟩
  | case3 properties method later unfolded described kept both ih =>
    rw [both] at ih
    obtain ⟨descriptions, fewer⟩ := ih own (List.forall_mem_cons.mp said).2
    exact ⟨descriptions, List.cons_subset_cons method fewer⟩

end Accessors

/-- No description in a published class holds a doubled space. -/
structure PublishedClass.HasSingleSpaces (published : PublishedClass) : Prop where
  own : SingleSpaced published.description
  methods : ∀ method ∈ published.methods, SingleSpaced method.description
  parameters : ∀ method ∈ published.methods, ∀ parameter ∈ method.parameterList,
    SingleSpaced parameter.description
  properties : ∀ property ∈ published.properties, SingleSpaced property.description

/-- Whatever the source says, a class is published with single spaces in all its descriptions. -/
theorem ClassPage.hasSingleSpaces_publish (page : ClassPage) : page.publish.HasSingleSpaces := by
  have own : ∀ property ∈ page.properties.map Property.publish,
      SingleSpaced property.description :=
    List.forall_mem_map.mpr fun property _ => singleSpaced_cleanDescription property.description
  have said : ∀ method ∈ (page.methods.filter (!·.returnType.isEmpty)).map Method.publish,
      SingleSpaced method.description :=
    List.forall_mem_map.mpr fun method _ => singleSpaced_cleanDescription method.description
  obtain ⟨described, kept⟩ := description_foldAccessors own said
  constructor
  case own => exact singleSpaced_cleanDescription page.description
  case methods => exact fun method member => said method (kept member)
  case parameters =>
    intro method member
    obtain ⟨source, -, rfl⟩ := List.mem_map.mp (kept member)
    exact List.forall_mem_map.mpr fun parameter _ =>
      singleSpaced_cleanDescription parameter.description
  case properties => exact described

end ApiReference
