import ApiReference.ClassPage
import ApiReference.Proofs.Text.NameOrder

/-!
# Methods of one name stand together

A list is grouped if between two equal items there is no other (`Grouped`).  It stays grouped if an
item is doubled where it stands, or if a new one is put at the end.

A method that is put into a list goes behind the last method of its name, and at the end if there is
none (`insertGrouped_cases`).  So it becomes the last overload of its name (`filter_insertGrouped`).
-/

set_option autoImplicit false

namespace ApiReference

/-! ## Grouped lists -/

section Grouped

variable {α : Type} {item first : α} {items front behind : List α}

/-- Between two equal items of the list there is no other. -/
def Grouped (items : List α) : Prop :=
  ∀ front item between behind, items = front ++ item :: (between ++ item :: behind) →
    ∀ other ∈ between, other = item

theorem grouped_nil : Grouped ([] : List α) := by
  intro front item between behind spelled
  simp at spelled

/-- An item that is put in front keeps a list grouped if it is new or equals the first one. -/
theorem grouped_cons_iff :
    Grouped (first :: items) ↔ Grouped items ∧ (first ∈ items → items.head? = some first) := by
  constructor
  · refine fun grouped => ⟨fun front item between behind spelled => ?_, fun again => ?_⟩
    · exact grouped (first :: front) item between behind (by rw [spelled, List.cons_append])
    · obtain ⟨between, behind, rfl⟩ := List.append_of_mem again
      have equal := grouped [] first between behind rfl
      cases between with
      | nil => rfl
      | cons next more => rw [equal next List.mem_cons_self]; rfl
  · rintro ⟨grouped, isNext⟩ front item between behind spelled other member
    cases front with
    | cons before rest =>
      exact grouped rest item between behind (List.cons.inj spelled).2 other member
    | nil =>
      obtain ⟨rfl, rfl⟩ := List.cons.inj spelled
      -- the item that stands between equals the one behind the first, which opens the rest
      cases between with
      | nil => contradiction
      | cons next more =>
        have same : next = first := by simpa using isNext (by simp)
        rcases List.mem_cons.mp member with rfl | inMore
        · exact same
        · exact grouped [] first more behind (by rw [same]; rfl) other inMore

instance decidableGrouped [DecidableEq α] : (items : List α) → Decidable (Grouped items)
  | [] => isTrue grouped_nil
  | _ :: items =>
    have := decidableGrouped items
    decidable_of_iff _ grouped_cons_iff.symm

/-- An item that is new may be put at the end. -/
theorem Grouped.concat (grouped : Grouped items) (isNew : item ∉ items) :
    Grouped (items ++ [item]) := by
  induction items with
  | nil => simp [grouped_cons_iff, grouped_nil]
  | cons first later ih =>
    rw [grouped_cons_iff] at grouped
    rw [List.mem_cons, not_or] at isNew
    rw [List.cons_append, grouped_cons_iff]
    refine ⟨ih grouped.1 isNew.2, fun again => ?_⟩
    have inLater : first ∈ later := by simpa [Ne.symm isNew.1] using again
    rw [List.head?_append_of_ne_nil _ (List.ne_nil_of_mem inLater)]
    exact grouped.2 inLater

/-- An item may be doubled where it stands. -/
theorem Grouped.double (grouped : Grouped (front ++ item :: behind)) :
    Grouped (front ++ item :: item :: behind) := by
  induction front with
  | nil => exact grouped_cons_iff.mpr ⟨grouped, fun _ => rfl⟩
  | cons first later ih =>
    rw [List.cons_append, grouped_cons_iff] at grouped ⊢
    refine ⟨ih grouped.1, fun again => ?_⟩
    have isNext := grouped.2 (by simpa using again)
    cases later with
    | nil => exact isNext
    | cons next more => exact isNext

/-- Items in order are grouped. -/
theorem grouped_of_pairwise_le [PartialOrder α] (sorted : items.Pairwise (· ≤ ·)) :
    Grouped items := by
  rintro front item between behind rfl other member
  have inOrder := (List.pairwise_append.mp sorted).2.1
  rw [List.pairwise_cons, List.pairwise_append] at inOrder
  have above : item ≤ other := inOrder.1 other (List.mem_append_left _ member)
  have below : other ≤ item := inOrder.2.2.2 other member item List.mem_cons_self
  exact le_antisymm below above

end Grouped

namespace Method

variable {methods : List Method} {method : Method}

/-! ## Where a method is put -/

theorem insertBehindNamesake?_eq_none_iff :
    insertBehindNamesake? method methods = none ↔
      ∀ other ∈ methods, other.name ≠ method.name := by
  induction methods with
  | nil => simp [insertBehindNamesake?]
  | cons first later ih =>
    rw [insertBehindNamesake?, List.forall_mem_cons, ← ih]
    cases insertBehindNamesake? method later with
    | some inserted => simp
    | none => simp

theorem exists_of_insertBehindNamesake? {inserted : List Method}
    (put : insertBehindNamesake? method methods = some inserted) :
    ∃ front namesake behind, methods = front ++ namesake :: behind ∧
      inserted = front ++ namesake :: method :: behind ∧ namesake.name = method.name ∧
      ∀ other ∈ behind, other.name ≠ method.name := by
  induction methods generalizing inserted with
  | nil => cases put
  | cons first later ih =>
    rw [insertBehindNamesake?] at put
    split at put
    · rename_i insertedLater putLater
      obtain rfl := Option.some.inj put
      obtain ⟨front, namesake, behind, rfl, rfl, rest⟩ := ih putLater
      exact ⟨first :: front, namesake, behind, rfl, rfl, rest⟩
    · rename_i noneLater
      split at put
      · rename_i sameName
        obtain rfl := Option.some.inj put
        exact ⟨[], first, later, rfl, rfl, sameName,
          insertBehindNamesake?_eq_none_iff.mp noneLater⟩
      · cases put

/-- A method is put behind the last one of its name, or else at the end. -/
theorem insertGrouped_cases (methods : List Method) (method : Method) :
    (∃ front namesake behind, methods = front ++ namesake :: behind ∧
      insertGrouped methods method = front ++ namesake :: method :: behind ∧
      namesake.name = method.name ∧ ∀ other ∈ behind, other.name ≠ method.name) ∨
    ((∀ other ∈ methods, other.name ≠ method.name) ∧
      insertGrouped methods method = methods ++ [method]) := by
  rw [insertGrouped]
  cases put : insertBehindNamesake? method methods with
  | some inserted => exact .inl (exists_of_insertBehindNamesake? put)
  | none => exact .inr ⟨insertBehindNamesake?_eq_none_iff.mp put, rfl⟩

/-- A method that is put in moves no other, and no method of its name stands behind it. -/
theorem exists_insertGrouped (methods : List Method) (method : Method) :
    ∃ front behind, methods = front ++ behind ∧
      insertGrouped methods method = front ++ method :: behind ∧
      ∀ other ∈ behind, other.name ≠ method.name := by
  rcases insertGrouped_cases methods method with
    ⟨front, namesake, behind, rfl, inserted, -, none⟩ | ⟨-, inserted⟩
  · refine ⟨front ++ [namesake], behind, List.append_cons .., ?_, none⟩
    rw [inserted, ← List.append_cons]
  · exact ⟨methods, [], (List.append_nil methods).symm, inserted, by simp⟩

/-- A method that is put in becomes the last one of its name. -/
theorem filter_insertGrouped (methods : List Method) (method : Method) (name : String) :
    (insertGrouped methods method).filter (·.name = name) =
      methods.filter (·.name = name) ++ if method.name = name then [method] else [] := by
  obtain ⟨front, behind, rfl, inserted, none⟩ := exists_insertGrouped methods method
  rw [inserted, List.filter_append, List.filter_append]
  by_cases sameName : method.name = name
  · have noneBehind : behind.filter (·.name = name) = [] := by
      rw [List.filter_eq_nil_iff]
      exact fun other member => by simpa [sameName] using none other member
    rw [List.filter_cons_of_pos (by simpa using sameName), if_pos sameName, noneBehind,
      List.append_nil]
  · rw [List.filter_cons_of_neg (by simpa using sameName), if_neg sameName, List.append_nil]

/-- Methods that are sorted by name are grouped, whatever their order was. -/
theorem grouped_sortByName (methods : List Method) :
    Grouped ((sortByName name methods).map name) :=
  grouped_of_pairwise_le (List.pairwise_map.mpr (pairwise_le_sortByName name methods))

end Method

end ApiReference
