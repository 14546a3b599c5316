import Mathlib.Data.List.Induction
import Mathlib.Data.List.Nodup
import Std.Data.ExtTreeMap.Lemmas
import ApiReference.Proofs.Text.Names
import ApiReference.Store.IndexedList

/-!
# An index that stays right

The index of an indexed list is exact if it gives for a name the one position at which an item of
that name stands, and nothing for any other name.  Then names are distinct, looking up through the
index is the same as searching the list (`find?_eq`), and the items determine the index
(`eq_of_items_eq`).

Exactness is not a matter of the type.  An index that was right stays right for other items only if
these have the same names at the same positions (`exact_mk_iff`), so that a sort which moves
anything has to make the index anew.  Each edit does what it needs to (`exact_apply`) and, as long
as the index is right, does to the items what one would do to a list without any index
(`items_apply`).  Both pass from one edit to a run of them (`exact_run`, `items_run`).
-/

set_option autoImplicit false

namespace ApiReference

namespace IndexedList

/-! ## Indices of names -/

/-- The index gives exactly the positions that names have in a list. -/
def Indexes (index : Std.ExtTreeMap String Nat) (names : List String) : Prop :=
  ∀ (name : String) (position : Nat), index[name]? = some position ↔ names[position]? = some name

section Indexes

variable {index other : Std.ExtTreeMap String Nat} {names : List String} {name : String}

theorem Indexes.unique (right : Indexes index names) (alsoRight : Indexes other names) :
    index = other := by
  apply Std.ExtTreeMap.ext_getElem?
  intro name
  apply Option.ext
  intro position
  rw [right, alsoRight]

/-- A name has one position, so it occurs once. -/
theorem Indexes.nodup (right : Indexes index names) : names.Nodup := by
  rw [List.nodup_iff_getElem?_ne_getElem?]
  intro first second before inside equal
  have atSecond : names[second]? = some names[second] := List.getElem?_eq_getElem inside
  have found := (right _ _).mpr atSecond
  rw [(right _ _).mpr (equal.trans atSecond)] at found
  exact Nat.ne_of_lt before (Option.some.inj found)

theorem Indexes.contains_iff (right : Indexes index names) :
    index.contains name = true ↔ name ∈ names := by
  rw [Std.ExtTreeMap.contains_eq_isSome_getElem?, Option.isSome_iff_exists, List.mem_iff_getElem?]
  exact exists_congr fun position => right name position

/-- A new name that comes last is entered with the number of names before it. -/
theorem Indexes.append (right : Indexes index names) (fresh : name ∉ names) :
    Indexes (index.insert name names.length) (names ++ [name]) := by
  intro known position
  rw [Std.ExtTreeMap.getElem?_insert, List.getElem?_append]
  by_cases same : name = known
  · subst same
    have notBefore : names[position]? ≠ some name :=
      fun found => fresh (List.mem_of_getElem? found)
    rw [if_pos Std.ReflCmp.compare_self]
    grind
  · have differs : compare name known ≠ .eq := mt Std.LawfulEqCmp.compare_eq_iff_eq.mp same
    rw [if_neg differs, right]
    grind

theorem numbered_concat (names : List String) (name : String) :
    numbered (names ++ [name]) = (numbered names).insert name names.length := by
  rw [numbered, List.zipIdx_append, List.foldl_append, Nat.zero_add]
  rfl

/-- An index that is made from scratch is right, by induction from the last name on. -/
theorem indexes_numbered (distinct : names.Nodup) : Indexes (numbered names) names := by
  induction names using List.reverseRecOn with
  | nil =>
    intro name position
    rw [numbered, List.zipIdx_nil, List.foldl_nil, Std.ExtTreeMap.getElem?_empty,
      List.getElem?_nil]
    exact ⟨nofun, nofun⟩
  | append_singleton earlier last ih =>
    obtain ⟨distinctEarlier, -, fresh⟩ := List.nodup_append.mp distinct
    rw [numbered_concat]
    refine (ih distinctEarlier).append fun member => ?_
    exact fresh last member last (List.mem_singleton_self last) rfl

end Indexes

/-! ## Exact lists -/

variable {α : Type} {nameOf : α → String} {store other : IndexedList nameOf} {name : String}
  {position : Nat} {item : α}

/-- The index of the list is right. -/
def Exact (store : IndexedList nameOf) : Prop :=
  Indexes store.index store.names

/-- An index that was right stays right for other items if and only if these have the same names at
the same positions. -/
theorem exact_mk_iff (exact : store.Exact) {items : List α} :
    (⟨items, store.index⟩ : IndexedList nameOf).Exact ↔ items.map nameOf = store.names := by
  constructor
  · intro stays
    apply List.ext_getElem?
    intro position
    apply Option.ext
    intro name
    exact (stays name position).symm.trans (exact name position)
  · intro sameNames name position
    exact (exact name position).trans (by rw [← sameNames]; rfl)

/-- Items in another order under the old index are found by the names of others. -/
example :
    let store : IndexedList (id : String → String) := (empty.insert "b").insert "a"
    let stale : IndexedList (id : String → String) := ⟨store.items.reverse, store.index⟩
    store.find? "a" = some "a" ∧ stale.find? "a" = some "b" := by
  decide +kernel

theorem Exact.eq_of_items_eq (exact : store.Exact) (otherExact : other.Exact)
    (same : store.items = other.items) : store = other := by
  obtain ⟨items, index⟩ := store
  obtain ⟨_, otherIndex⟩ := other
  obtain rfl : items = _ := same
  obtain rfl : index = otherIndex := Indexes.unique exact otherExact
  rfl

theorem Exact.nodup (exact : store.Exact) : store.names.Nodup :=
  Indexes.nodup exact

theorem Exact.contains_iff (exact : store.Exact) :
    store.contains name = true ↔ name ∈ store.names :=
  Indexes.contains_iff exact

/-- A name has a position exactly if an item of the name stands there. -/
theorem Exact.position?_eq_some_iff (exact : store.Exact) :
    store.position? name = some position ↔
      ∃ item, store.items[position]? = some item ∧ nameOf item = name := by
  rw [position?, exact, names, List.getElem?_map, Option.map_eq_some_iff]

/-- The item of a name is the one item that has it. -/
theorem Exact.find?_eq_some_iff (exact : store.Exact) :
    store.find? name = some item ↔ item ∈ store.items ∧ nameOf item = name := by
  rw [find?, Option.bind_eq_some_iff]
  constructor
  · rintro ⟨position, known, found⟩
    obtain ⟨named, standsThere, rfl⟩ := exact.position?_eq_some_iff.mp known
    obtain rfl : named = item := Option.some.inj (standsThere.symm.trans found)
    exact ⟨List.mem_of_getElem? found, rfl⟩
  · rintro ⟨member, isNamed⟩
    obtain ⟨position, found⟩ := List.mem_iff_getElem?.mp member
    exact ⟨position, exact.position?_eq_some_iff.mpr ⟨item, found, isNamed⟩, found⟩

/-- Looking up through the index is searching the list. -/
theorem Exact.find?_eq (exact : store.Exact) (name : String) :
    store.find? name = store.items.find? (nameOf · = name) := by
  apply Option.ext
  intro item
  rw [exact.find?_eq_some_iff, find?_name_eq_some_iff exact.nodup]

/-! ## Edits of a list alone -/

namespace Edit

/-- What an edit does to the items, said without an index. -/
def onList (items : List α) : Edit nameOf → List α
  | insert item => if nameOf item ∈ items.map nameOf then items else items ++ [item]
  | modifyAt position change _ => items.modify position change
  | mapItems change _ => items.map change
  | sort precedes => items.mergeSort precedes

end Edit

theorem KeepsName.ite {change : α → α} (keeps : KeepsName nameOf change) (name : String) :
    KeepsName nameOf fun item => if nameOf item = name then change item else item := by
  intro item
  dsimp only
  split
  · exact keeps item
  · rfl

section Changes

variable {change : α → α} (keeps : KeepsName nameOf change) (items : List α)

include keeps

theorem names_map : (items.map change).map nameOf = items.map nameOf := by
  rw [List.map_map]
  exact List.map_congr_left fun item _ => keeps item

theorem names_modify (position : Nat) :
    (items.modify position change).map nameOf = items.map nameOf := by
  apply List.ext_getElem?
  intro candidate
  rw [List.getElem?_map, List.getElem?_map, List.getElem?_modify]
  cases items[candidate]? with
  | none => rfl
  | some item =>
    simp only [Option.map_eq_map, Option.map_some]
    split
    · rw [keeps item]
    · rfl

end Changes

/-! ## One edit -/

/-- An edit of an exact list does to the items what it would do to a list without an index. -/
theorem items_apply (exact : store.Exact) (edit : Edit nameOf) :
    (edit.apply store).items = edit.onList store.items := by
  cases edit with
  | insert item =>
    rw [Edit.apply, insert, Edit.onList]
    simp only [exact.contains_iff, names]
    split <;> rfl
  | modifyAt position change _ => rfl
  | mapItems change _ => rfl
  | sort precedes => rfl

/-- Appending enters the new name, changes in place keep the names where they are, and sorting
makes the index anew. -/
theorem exact_apply (exact : store.Exact) (edit : Edit nameOf) : (edit.apply store).Exact := by
  cases edit with
  | insert item =>
    rw [Edit.apply, insert]
    split
    · exact exact
    · rename_i unknown
      have fresh : nameOf item ∉ store.names := mt exact.contains_iff.mpr unknown
      have entered := Indexes.append exact fresh
      rw [names, List.length_map] at entered
      rw [Exact, names, List.map_append]
      exact entered
  | modifyAt position change keeps =>
    exact (exact_mk_iff exact).mpr (names_modify keeps store.items position)
  | mapItems change keeps => exact (exact_mk_iff exact).mpr (names_map keeps store.items)
  | sort precedes =>
    refine indexes_numbered ?_
    exact ((List.mergeSort_perm store.items precedes).map nameOf).nodup_iff.mpr exact.nodup

/-! ## Runs of edits -/

theorem exact_empty : (empty : IndexedList nameOf).Exact :=
  indexes_numbered List.nodup_nil

/-- Edits in any order and number keep an index right. -/
theorem exact_run (exact : store.Exact) (edits : List (Edit nameOf)) :
    (store.run edits).Exact := by
  induction edits generalizing store with
  | nil => exact exact
  | cons edit later ih => exact ih (exact_apply exact edit)

/-- Edited alike, an exact list and a list without an index hold the same items. -/
theorem items_run (exact : store.Exact) (edits : List (Edit nameOf)) :
    (store.run edits).items = edits.foldl Edit.onList store.items := by
  induction edits generalizing store with
  | nil => rfl
  | cons edit later ih =>
    rw [List.foldl_cons, ← items_apply exact]
    exact ih (exact_apply exact edit)

theorem Made.exact (made : store.Made) : store.Exact := by
  obtain ⟨edits, rfl⟩ := made
  exact exact_run exact_empty edits

/-! ## Changing by name -/

theorem modify_of_position? {change : α → α} (known : store.position? name = some position) :
    store.modify name change = store.modifyAt position change := by
  rw [modify, known]

theorem index_modify (store : IndexedList nameOf) (name : String) (change : α → α) :
    (store.modify name change).index = store.index := by
  unfold modify
  split <;> rfl

/-- The change is made at the one position at which the name stands. -/
theorem Exact.items_modify (exact : store.Exact) (name : String) (change : α → α) :
    (store.modify name change).items =
      store.items.map fun item => if nameOf item = name then change item else item := by
  unfold modify
  split
  · rename_i unknown
    have otherName : ∀ item ∈ store.items, nameOf item ≠ name := by
      rintro item member rfl
      obtain ⟨position, found⟩ := List.mem_iff_getElem?.mp member
      have isKnown := exact.position?_eq_some_iff.mpr ⟨item, found, rfl⟩
      rw [unknown] at isKnown
      cases isKnown
    rw [List.map_congr_left fun item member => if_neg (otherName item member), List.map_id']
  · rename_i position known
    apply List.ext_getElem?
    intro candidate
    rw [modifyAt, List.getElem?_modify, List.getElem?_map]
    cases found : store.items[candidate]? with
    | none => rfl
    | some item =>
      have here : position = candidate ↔ nameOf item = name := by
        constructor
        · rintro rfl
          obtain ⟨named, standsThere, isNamed⟩ := exact.position?_eq_some_iff.mp known
          obtain rfl : named = item := Option.some.inj (standsThere.symm.trans found)
          exact isNamed
        · intro isNamed
          have sameName := exact.position?_eq_some_iff.mpr ⟨item, found, isNamed⟩
          exact Option.some.inj (known.symm.trans sameName)
      simp only [here, Option.map_eq_map, Option.map_some]

/-! ## What is found after an edit -/

theorem Exact.items_insert (exact : store.Exact) (item : α) :
    (store.insert item).items =
      if nameOf item ∈ store.names then store.items else store.items ++ [item] :=
  items_apply exact (.insert item)

/-- An item whose name is taken is refused, and items and index stay as they are. -/
theorem Exact.insert_of_mem (exact : store.Exact) (taken : nameOf item ∈ store.names) :
    store.insert item = store :=
  if_pos (exact.contains_iff.mpr taken)

/-- An item with a new name is entered with the number of the items before it. -/
theorem Exact.insert_of_notMem (exact : store.Exact) (fresh : nameOf item ∉ store.names) :
    store.insert item =
      ⟨store.items ++ [item], store.index.insert (nameOf item) store.items.length⟩ :=
  if_neg (mt exact.contains_iff.mp fresh)

/-- An item that is added moves no other. -/
theorem Exact.position?_insert (exact : store.Exact) (item : α)
    (known : store.position? name = some position) :
    (store.insert item).position? name = some position := by
  have exactAfter : (store.insert item).Exact := exact_apply exact (.insert item)
  obtain ⟨named, standsThere, isNamed⟩ := exact.position?_eq_some_iff.mp known
  refine exactAfter.position?_eq_some_iff.mpr ⟨named, ?_, isNamed⟩
  rw [exact.items_insert]
  split
  · exact standsThere
  · obtain ⟨inside, -⟩ := List.getElem?_eq_some_iff.mp standsThere
    rw [List.getElem?_append_left inside, standsThere]

/-- What was found before stays, and otherwise it is the item that is added. -/
theorem Exact.find?_insert (exact : store.Exact) (item : α) (name : String) :
    (store.insert item).find? name =
      (store.find? name).or ([item].find? (nameOf · = name)) := by
  have exactAfter : (store.insert item).Exact := exact_apply exact (.insert item)
  rw [exactAfter.find?_eq, exact.find?_eq, exact.items_insert]
  split
  · rename_i taken
    exact (find?_name_or_of_mem taken).symm
  · exact List.find?_append

/-- Changes in place are seen at the same positions. -/
theorem find?_mapItems (store : IndexedList nameOf) (change : α → α) (name : String) :
    (store.mapItems change).find? name = (store.find? name).map change := by
  rw [find?, find?, Option.map_bind]
  exact Option.bind_congr fun position _ => List.getElem?_map ..

/-- A change meant for one name is seen under that name alone. -/
theorem Exact.find?_modify (exact : store.Exact) (name : String) (change : α → α)
    (other : String) :
    (store.modify name change).find? other =
      (store.find? other).map fun item => if nameOf item = name then change item else item := by
  have inPlace : store.modify name change =
      store.mapItems fun item => if nameOf item = name then change item else item := by
    rw [mapItems, ← exact.items_modify, ← index_modify store name change]
  rw [inPlace, find?_mapItems]

/-- Sorting with a new index changes nothing about what is found. -/
theorem Exact.find?_sort (exact : store.Exact) (precedes : α → α → Bool) (name : String) :
    (store.sort precedes).find? name = store.find? name := by
  have exactAfter : (store.sort precedes).Exact := exact_apply exact (.sort precedes)
  rw [exactAfter.find?_eq, exact.find?_eq]
  exact find?_name_of_perm exactAfter.nodup (List.mergeSort_perm store.items precedes)

end IndexedList

end ApiReference
