import ApiReference.Proofs.Text.Names
import ApiReference.Text.NameList
import Mathlib.Data.List.Forall2
import Mathlib.Data.String.Basic

/-!
# The order of names

Lists that are reported as sets of names are strictly increasing (`pairwise_sortedNames`), and so
are the names of items that are ordered by them, if no two items have the same name
(`pairwise_sortByName`); items that have the same stay in their order (`filter_sortByName`).  So it
does not matter in what order the names were before (`sortedNames_congr`), nor the items, as long as
the same are found by every name (`forall₂_sortByName_of_find?`).
-/

set_option autoImplicit false

namespace ApiReference

variable {name : String} {names : List String}

theorem pairwise_insertName (increasing : names.Pairwise (· < ·)) :
    (insertName name names).Pairwise (· < ·) := by
  induction names with
  | nil => exact List.pairwise_singleton _ _
  | cons first rest ih =>
    obtain ⟨least, increasingRest⟩ := List.pairwise_cons.mp increasing
    rw [insertName]
    split
    · rename_i smaller
      refine List.pairwise_cons.mpr ⟨fun other member => ?_, increasing⟩
      rcases List.mem_cons.mp member with rfl | inRest
      · exact smaller
      · exact smaller.trans (least other inRest)
    · rename_i notSmaller
      split
      · exact increasing
      · rename_i different
        refine List.pairwise_cons.mpr ⟨fun other member => ?_, ih increasingRest⟩
        rcases mem_insertName.mp member with rfl | inRest
        · exact lt_of_le_of_ne (not_lt.mp notSmaller) (Ne.symm different)
        · exact least other inRest

theorem pairwise_sortedNames (names : List String) : (sortedNames names).Pairwise (· < ·) := by
  induction names with
  | nil => exact List.Pairwise.nil
  | cons first rest ih => exact pairwise_insertName ih

/-- Strictly increasing lists of the same names are equal. -/
theorem eq_of_increasing {others : List String} (increasing : names.Pairwise (· < ·))
    (otherIncreasing : others.Pairwise (· < ·)) (same : ∀ name, name ∈ names ↔ name ∈ others) :
    names = others := by
  have reordered : names.Perm others :=
    (List.perm_ext_iff_of_nodup (increasing.imp ne_of_lt) (otherIncreasing.imp ne_of_lt)).mpr same
  exact reordered.eq_of_pairwise (fun first second _ _ before after => absurd after before.asymm)
    increasing otherIncreasing

theorem sortedNames_congr {others : List String} (same : ∀ name, name ∈ names ↔ name ∈ others) :
    sortedNames names = sortedNames others := by
  refine eq_of_increasing (pairwise_sortedNames names) (pairwise_sortedNames others) fun name => ?_
  rw [mem_sortedNames, mem_sortedNames, same]

section SortByName

variable {α : Type} (nameOf : α → String) (items : List α)

theorem sortByName_perm : (sortByName nameOf items).Perm items :=
  List.mergeSort_perm _ _

@[simp]
theorem mem_sortByName {item : α} : item ∈ sortByName nameOf items ↔ item ∈ items :=
  (sortByName_perm nameOf items).mem_iff

theorem nameLe_iff {left right : α} :
    nameLe nameOf left right = true ↔ nameOf left ≤ nameOf right :=
  decide_eq_true_iff

theorem nameLe_trans (left middle right : α) (first : nameLe nameOf left middle = true)
    (second : nameLe nameOf middle right = true) : nameLe nameOf left right = true := by
  rw [nameLe_iff] at first second ⊢
  exact first.trans second

theorem nameLe_total (left right : α) :
    (nameLe nameOf left right || nameLe nameOf right left) = true := by
  rw [Bool.or_eq_true, nameLe_iff, nameLe_iff]
  exact le_total _ _

theorem pairwise_le_sortByName :
    (sortByName nameOf items).Pairwise fun left right => nameOf left ≤ nameOf right := by
  have sorted : (sortByName nameOf items).Pairwise fun left right =>
      nameLe nameOf left right = true :=
    List.pairwise_mergeSort (nameLe_trans nameOf) (nameLe_total nameOf) items
  exact sorted.imp (nameLe_iff nameOf).mp

/-- Items of one name stay in their order. -/
theorem filter_sortByName (name : String) :
    (sortByName nameOf items).filter (nameOf · = name) = items.filter (nameOf · = name) := by
  have inOrder : (items.filter (nameOf · = name)).Pairwise fun left right =>
      nameLe nameOf left right = true := by
    refine List.pairwise_of_forall_mem_list fun left isLeft right isRight => ?_
    rw [List.mem_filter, decide_eq_true_eq] at isLeft isRight
    rw [nameLe_iff, isLeft.2, isRight.2]
  have stay : (items.filter (nameOf · = name)).Sublist (sortByName nameOf items) :=
    List.sublist_mergeSort (nameLe_trans nameOf) (nameLe_total nameOf) inOrder List.filter_sublist
  have stayAlone := stay.filter (nameOf · = name)
  rw [List.filter_filter] at stayAlone
  simp only [Bool.and_self] at stayAlone
  have sameLength := ((sortByName_perm nameOf items).filter (nameOf · = name)).length_eq
  exact (stayAlone.eq_of_length sameLength.symm).symm

/-- Items of different names are ordered strictly. -/
theorem pairwise_sortByName (distinct : (items.map nameOf).Nodup) :
    ((sortByName nameOf items).map nameOf).Pairwise (· < ·) := by
  have distinctSorted : ((sortByName nameOf items).map nameOf).Nodup :=
    ((sortByName_perm nameOf items).map nameOf).nodup_iff.mpr distinct
  have ordered := List.pairwise_map.mpr (pairwise_le_sortByName nameOf items)
  exact (List.pairwise_and_iff.mpr ⟨ordered, distinctSorted⟩).imp fun both =>
    lt_of_le_of_ne both.1 both.2

end SortByName

/-! ## Related lists -/

section Related

variable {α β : Type} {nameOf : α → String} {otherName : β → String} {related : α → β → Prop}
  {left : List α} {right : List β}

/-- A change that keeps the names may be made before or after items are ordered. -/
theorem sortByName_map {change : α → β} (keeps : ∀ item ∈ left, otherName (change item) = nameOf item) :
    sortByName otherName (left.map change) = (sortByName nameOf left).map change := by
  refine (List.map_mergeSort fun first isFirst second isSecond => ?_).symm
  rw [nameLe, nameLe, keeps first isFirst, keeps second isSecond]

/-- Where related items have the same name, they come to stand at the same places. -/
theorem forall₂_sortByName (alike : List.Forall₂ related left right)
    (sameName : ∀ first second, related first second → nameOf first = otherName second) :
    List.Forall₂ related (sortByName nameOf left) (sortByName otherName right) := by
  -- both lists are read off the list of pairs, and to order either is to order the pairs
  obtain ⟨sameLength, pairwise⟩ := List.forall₂_iff_zip.mp alike
  have firsts : (left.zip right).map Prod.fst = left := List.map_fst_zip sameLength.le
  have seconds : (left.zip right).map Prod.snd = right := List.map_snd_zip sameLength.ge
  have sortedLeft : sortByName nameOf left =
      (sortByName (nameOf ∘ Prod.fst) (left.zip right)).map Prod.fst := by
    conv_lhs => rw [← firsts]
    exact sortByName_map fun _ _ => rfl
  have sortedRight : sortByName otherName right =
      (sortByName (nameOf ∘ Prod.fst) (left.zip right)).map Prod.snd := by
    conv_lhs => rw [← seconds]
    exact sortByName_map fun pair member => (sameName _ _ (pairwise member)).symm
  rw [sortedLeft, sortedRight, List.forall₂_map_left_iff, List.forall₂_map_right_iff,
    List.forall₂_same]
  intro pair member
  exact pairwise ((mem_sortByName _ _).mp member)

/-- Lists of the same names are related if the items of each name are. -/
theorem forall₂_of_names_eq (names : left.map nameOf = right.map otherName)
    (alike : ∀ first ∈ left, ∀ second ∈ right, nameOf first = otherName second →
      related first second) : List.Forall₂ related left right := by
  induction left generalizing right with
  | nil =>
    obtain rfl := List.map_eq_nil_iff.mp names.symm
    exact .nil
  | cons first later ih =>
    cases right with
    | nil => cases names
    | cons second others =>
      obtain ⟨sameName, sameNames⟩ := List.cons.inj names
      refine .cons (alike first List.mem_cons_self second List.mem_cons_self sameName) ?_
      exact ih sameNames fun item inLater other inOthers =>
        alike item (List.mem_cons_of_mem first inLater) other (List.mem_cons_of_mem second inOthers)

/-- If what is found by a name is related, whatever the name, then the lists that are ordered by
names are related item by item. -/
theorem forall₂_sortByName_of_find? (distinct : (left.map nameOf).Nodup)
    (otherDistinct : (right.map otherName).Nodup)
    (found : ∀ name, Option.Rel related (left.find? (nameOf · = name))
      (right.find? (otherName · = name))) :
    List.Forall₂ related (sortByName nameOf left) (sortByName otherName right) := by
  apply forall₂_of_names_eq
  case names =>
    refine eq_of_increasing (pairwise_sortByName nameOf left distinct)
      (pairwise_sortByName otherName right otherDistinct) fun name => ?_
    rw [((sortByName_perm nameOf left).map nameOf).mem_iff,
      ((sortByName_perm otherName right).map otherName).mem_iff, ← find?_name_isSome_iff,
      ← find?_name_isSome_iff, isSome_eq_of_rel (found name)]
  case alike =>
    intro first isLeft second isRight sameName
    have both := found (nameOf first)
    rwa [(find?_name_eq_some_iff distinct).mpr ⟨(mem_sortByName _ _).mp isLeft, rfl⟩,
      (find?_name_eq_some_iff otherDistinct).mpr ⟨(mem_sortByName _ _).mp isRight, sameName.symm⟩,
      Option.rel_some_some] at both

end Related

end ApiReference
