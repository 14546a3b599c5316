import Mathlib.Data.List.Dedup

/-!
# Items that are found by their names

Aliases, classes and events are kept in lists and found by a name, which no two of them share.  Then
an item is found exactly if it is in the list (`find?_name_eq_some_iff`), so that the order of the
list does not matter (`find?_name_of_perm`), and an item whose name is taken would never be found
behind the others (`find?_name_or_of_mem`).

`repeats` names the items of a list that come behind another of their name, or whose name is known
from elsewhere.
-/

set_option autoImplicit false

namespace ApiReference

variable {α : Type} {nameOf : α → String} {items : List α} {item : α} {name : String}

/-! ## Finding -/

theorem find?_name_isSome_iff :
    (items.find? (nameOf · = name)).isSome = true ↔ name ∈ items.map nameOf := by
  simp only [List.find?_isSome, decide_eq_true_eq, List.mem_map]

/-- Where names are distinct, what is found is what is there. -/
theorem find?_name_eq_some_iff (distinct : (items.map nameOf).Nodup) :
    items.find? (nameOf · = name) = some item ↔ item ∈ items ∧ nameOf item = name := by
  constructor
  · intro found
    exact ⟨List.mem_of_find?_eq_some found, by simpa using List.find?_some found⟩
  · rintro ⟨member, rfl⟩
    obtain ⟨twin, found⟩ := Option.isSome_iff_exists.mp
      (find?_name_isSome_iff.mpr (List.mem_map_of_mem member))
    have twinName : nameOf twin = nameOf item := by simpa using List.find?_some found
    rw [found, List.inj_on_of_nodup_map distinct (List.mem_of_find?_eq_some found) member twinName]

theorem find?_name_of_perm {others : List α} (distinct : (items.map nameOf).Nodup)
    (same : items.Perm others) :
    items.find? (nameOf · = name) = others.find? (nameOf · = name) := by
  apply Option.ext
  intro item
  have distinctOthers : (others.map nameOf).Nodup := (same.map nameOf).nodup distinct
  rw [find?_name_eq_some_iff distinct, find?_name_eq_some_iff distinctOthers, same.mem_iff]

/-- An item whose name is taken is not found behind the others. -/
theorem find?_name_or_of_mem (taken : nameOf item ∈ items.map nameOf) :
    (items.find? (nameOf · = name)).or ([item].find? (nameOf · = name)) =
      items.find? (nameOf · = name) := by
  cases found : items.find? (nameOf · = name) with
  | some kept => rfl
  | none =>
    have otherName : nameOf item ≠ name := by
      rintro rfl
      have isFound := find?_name_isSome_iff.mpr taken
      rw [found] at isFound
      cases isFound
    simp [otherName]

section Related

variable {β γ δ : Type} {related : α → β → Prop} {first? : Option α} {second? : Option β}

theorem isSome_eq_of_rel (both : Option.Rel related first? second?) :
    first?.isSome = second?.isSome := by
  cases both with
  | some _ => rfl
  | none => rfl

theorem rel_map {relatedAfter : γ → δ → Prop} {change : α → γ} {otherChange : β → δ}
    (both : Option.Rel related first? second?)
    (keeps : ∀ first second, related first second → relatedAfter (change first) (otherChange second)) :
    Option.Rel relatedAfter (first?.map change) (second?.map otherChange) := by
  cases both with
  | some alike => exact .some (keeps _ _ alike)
  | none => exact .none

end Related

/-! ## Names that are taken -/

variable {known other : List String}

/-- A list without repetitions is as long as any list of the same members is, each counted once. -/
theorem length_eq_length_dedup {names others : List String} (distinct : names.Nodup)
    (same : ∀ name, name ∈ names ↔ name ∈ others) : names.length = others.dedup.length := by
  refine List.Perm.length_eq ((List.perm_ext_iff_of_nodup distinct others.nodup_dedup).mpr ?_)
  intro name
  rw [same, List.mem_dedup]

/-- The items of a list whose names are taken, either by what is known or by an item before. -/
def repeats (nameOf : α → String) (known : List String) : List α → List α
  | [] => []
  | item :: later =>
    if nameOf item ∈ known then item :: repeats nameOf known later
    else repeats nameOf (nameOf item :: known) later

theorem repeats_of_mem (taken : nameOf item ∈ known) :
    repeats nameOf known (item :: items) = item :: repeats nameOf known items :=
  if_pos taken

theorem repeats_of_notMem (fresh : nameOf item ∉ known) :
    repeats nameOf known (item :: items) = repeats nameOf (nameOf item :: known) items :=
  if_neg fresh

/-- It does not matter in what order names are known, nor how often. -/
theorem repeats_congr (same : ∀ name, name ∈ known ↔ name ∈ other) :
    repeats nameOf known items = repeats nameOf other items := by
  induction items generalizing known other with
  | nil => rfl
  | cons item later ih =>
    by_cases taken : nameOf item ∈ known
    · rw [repeats_of_mem taken, repeats_of_mem ((same _).mp taken), ih same]
    · rw [repeats_of_notMem taken, repeats_of_notMem (mt (same _).mpr taken)]
      refine ih fun name => ?_
      rw [List.mem_cons, List.mem_cons, same]

theorem repeats_append (later : List α) :
    repeats nameOf known (items ++ later) =
      repeats nameOf known items ++ repeats nameOf (items.map nameOf ++ known) later := by
  induction items generalizing known with
  | nil => rfl
  | cons item between ih =>
    by_cases taken : nameOf item ∈ known
    · rw [List.cons_append, repeats_of_mem taken, repeats_of_mem taken, ih, List.cons_append]
      congr 2
      refine repeats_congr fun name => ?_
      simp only [List.map_cons, List.cons_append, List.mem_cons, List.mem_append]
      constructor
      · exact Or.inr
      · rintro (rfl | either)
        · exact Or.inr taken
        · exact either
    · rw [List.cons_append, repeats_of_notMem taken, repeats_of_notMem taken, ih]
      congr 1
      refine repeats_congr fun name => ?_
      simp only [List.map_cons, List.cons_append, List.mem_cons, List.mem_append]
      exact or_left_comm

theorem repeats_map {β : Type} (change : β → α) (items : List β) :
    repeats nameOf known (items.map change) =
      (repeats (nameOf ∘ change) known items).map change := by
  induction items generalizing known with
  | nil => rfl
  | cons item later ih =>
    rw [List.map_cons, repeats, repeats, apply_ite (List.map change), List.map_cons, ih, ih]
    rfl

end ApiReference
