import ApiReference.Published.Publish
import ApiReference.Proofs.Text.Names

/-!
# What is an accessor

The name of a method is read as that of an accessor by its first characters, whatever properties
there are.  It is read as `get`, `set` or `is` exactly if it opens with that word in any mixture of
cases, and then what is left is the name of the property (`ofName?_eq_some_iff`).  No name is read
in two ways.

Where properties have distinct names a method is an accessor of at most one of them, and what it
says changes neither names nor types.  So the properties can be looked at one by one: each hears
all methods in their order and takes over what its own accessors say.  The methods that are left are
those that are accessors of no property, whatever was said before (`foldAccessors_eq`).
-/

set_option autoImplicit false

namespace ApiReference

/-! ## Names of accessors -/

namespace Access

/-- The word with which the name of an accessor opens. -/
def word : Access → String
  | get => "get"
  | set => "set"
  | is => "is"

/-- A name tells an access to a property: it has at least four characters, and is the word in any
mixture of cases, followed by the name of the property. -/
def Names (access : Access) (name property : String) : Prop :=
  4 ≤ name.length ∧
    ∃ beginning : String, beginning.toLower = access.word ∧ name = beginning ++ property

end Access

theorem toList_toLower (text : String) : text.toLower.toList = text.toList.map Char.toLower :=
  String.toList_map

/-- A text opens with a word in any mixture of cases exactly if its first characters do. -/
theorem lowerBeginning_eq_iff {name property word : String} :
    lowerBeginning word.length name.toList = word.toList ∧
        String.ofList (name.toList.drop word.length) = property ↔
      ∃ beginning : String, beginning.toLower = word ∧ name = beginning ++ property := by
  constructor
  · rintro ⟨lower, rfl⟩
    refine ⟨String.ofList (name.toList.take word.length), ?_, ?_⟩
    · rw [← String.toList_inj, toList_toLower, String.toList_ofList]
      exact lower
    · rw [← String.toList_inj, String.toList_append, String.toList_ofList, String.toList_ofList,
        List.take_append_drop]
  · rintro ⟨beginning, rfl, rfl⟩
    have length : beginning.toList.length = beginning.toLower.length := by
      rw [← String.length_toList, toList_toLower, List.length_map]
    rw [lowerBeginning, String.toList_append, List.take_left' length, List.drop_left' length,
      String.ofList_toList, toList_toLower]
    exact ⟨rfl, rfl⟩

/-- The first two of three characters. -/
theorem lowerBeginning_two {characters : List Char} {first second third : Char}
    (three : lowerBeginning 3 characters = [first, second, third]) :
    lowerBeginning 2 characters = [first, second] := by
  have two := congrArg (List.take 2) three
  rwa [lowerBeginning, ← List.map_take, List.take_take] at two

/-- A name is read as that of an accessor exactly if it is one. -/
theorem AccessorName.ofName?_eq_some_iff {name property : String} {access : Access} :
    ofName? name = some ⟨access, property⟩ ↔ access.Names name property := by
  rw [Access.Names, ← lowerBeginning_eq_iff, ← String.length_toList, ofName?]
  by_cases short : name.toList.length < 4
  · simp [short, Nat.not_le.mpr short]
  rw [if_neg short, and_iff_right (Nat.not_lt.mp short)]
  cases access with
  | get =>
    show _ ↔ lowerBeginning 3 name.toList = ['g', 'e', 't'] ∧
      String.ofList (name.toList.drop 3) = property
    split_ifs with get set is <;> simp [*]
  | set =>
    show _ ↔ lowerBeginning 3 name.toList = ['s', 'e', 't'] ∧
      String.ofList (name.toList.drop 3) = property
    split_ifs with get set is <;> simp [*]
  | is =>
    show _ ↔ lowerBeginning 2 name.toList = ['i', 's'] ∧
      String.ofList (name.toList.drop 2) = property
    -- a name that opens with one of the longer words does not open with the shorter one
    split_ifs with get set is
    · simp [lowerBeginning_two get]
    · simp [lowerBeginning_two set]
    · simp [is]
    · simp [is]

/-! ## Accessors -/

namespace PublishedMethod

variable {method : PublishedMethod} {property : PublishedProperty} {access : Access}

/-- A method is an accessor of a property.  Its name tells so, and with `is` it must also return the
type of the property. -/
structure Accesses (method : PublishedMethod) (access : Access) (property : PublishedProperty) :
    Prop where
  named : access.Names method.name property.name
  typed : access = .is → property.type = method.returnType

/-- A method is an accessor of a property of one kind or another. -/
def IsAccessorOf (method : PublishedMethod) (property : PublishedProperty) : Prop :=
  ∃ access, method.Accesses access property

/-- How a method accesses a property, if it does. -/
def access? (method : PublishedMethod) (property : PublishedProperty) : Option Access :=
  (AccessorName.ofName? method.name).bind fun name =>
    if name.property = property.name ∧ property.isAccessedBy name.access method then
      some name.access
    else none

theorem isAccessedBy_iff :
    property.isAccessedBy access method = true ↔
      (access = .is → property.type = method.returnType) := by
  cases access <;> simp [PublishedProperty.isAccessedBy]

theorem access?_eq_some_iff :
    method.access? property = some access ↔ method.Accesses access property := by
  rw [access?, Option.bind_eq_some_iff]
  constructor
  · rintro ⟨⟨nameAccess, name⟩, read, accessed⟩
    split_ifs at accessed with applies
    obtain ⟨rfl, typed⟩ := applies
    obtain rfl : nameAccess = access := Option.some.inj accessed
    exact ⟨AccessorName.ofName?_eq_some_iff.mp read, isAccessedBy_iff.mp typed⟩
  · rintro ⟨named, typed⟩
    refine ⟨⟨access, property.name⟩, AccessorName.ofName?_eq_some_iff.mpr named, ?_⟩
    exact if_pos ⟨rfl, isAccessedBy_iff.mpr typed⟩

instance : Decidable (method.Accesses access property) :=
  decidable_of_iff _ access?_eq_some_iff

/-- A method accesses properties of one name only, and in one way. -/
theorem Accesses.unique {other : PublishedProperty} {otherAccess : Access}
    (accesses : method.Accesses access property) (also : method.Accesses otherAccess other) :
    access = otherAccess ∧ property.name = other.name := by
  have read := AccessorName.ofName?_eq_some_iff.mpr accesses.named
  rw [AccessorName.ofName?_eq_some_iff.mpr also.named, Option.some.injEq,
    AccessorName.mk.injEq] at read
  exact ⟨read.1.symm, read.2.symm⟩

theorem isAccessorOf_iff :
    method.IsAccessorOf property ↔ (method.access? property).isSome = true := by
  simp only [IsAccessorOf, ← access?_eq_some_iff, Option.isSome_iff_exists]

instance : Decidable (method.IsAccessorOf property) :=
  decidable_of_iff _ isAccessorOf_iff.symm

end PublishedMethod

namespace PublishedProperty

/-- The property with what a method says about it, if the method is an accessor of it. -/
def hear (property : PublishedProperty) (method : PublishedMethod) : PublishedProperty :=
  match method.access? property with
  | some access => property.describedBy access method.description
  | none => property

theorem hear_of_accesses {property : PublishedProperty} {method : PublishedMethod} {access : Access}
    (accesses : method.Accesses access property) :
    property.hear method = property.describedBy access method.description := by
  rw [hear, PublishedMethod.access?_eq_some_iff.mpr accesses]

theorem hear_of_not {property : PublishedProperty} {method : PublishedMethod}
    (noAccess : ¬ method.IsAccessorOf property) : property.hear method = property := by
  rw [PublishedMethod.isAccessorOf_iff, Option.not_isSome_iff_eq_none] at noAccess
  rw [hear, noAccess]

/-- What stays of a property whatever is said about it. -/
def withoutDescription (property : PublishedProperty) : PublishedProperty :=
  { property with description := "" }

theorem withoutDescription_describedBy (access : Access) (description : String)
    (property : PublishedProperty) :
    (property.describedBy access description).withoutDescription = property.withoutDescription := by
  cases access <;> rw [describedBy] <;> split <;> rfl

theorem withoutDescription_hear (property : PublishedProperty) (method : PublishedMethod) :
    (property.hear method).withoutDescription = property.withoutDescription := by
  rw [hear]
  split
  · exact withoutDescription_describedBy _ _ property
  · rfl

theorem name_hear (property : PublishedProperty) (method : PublishedMethod) :
    (property.hear method).name = property.name := by
  have same := congrArg PublishedProperty.name (withoutDescription_hear property method)
  exact same

/-- What was said about a property has no part in which methods access it. -/
theorem access?_hear (method other : PublishedMethod) (property : PublishedProperty) :
    other.access? (property.hear method) = other.access? property := by
  have same := congrArg other.access? (withoutDescription_hear property method)
  exact same

end PublishedProperty

/-! ## Folding -/

/-- A method is an accessor of one of some properties. -/
def PublishedMethod.IsAccessorAmong (method : PublishedMethod)
    (properties : List PublishedProperty) : Prop :=
  ∃ property ∈ properties, method.IsAccessorOf property

instance (method : PublishedMethod) (properties : List PublishedProperty) :
    Decidable (method.IsAccessorAmong properties) :=
  inferInstanceAs (Decidable (∃ property ∈ properties, method.IsAccessorOf property))

/-- A method is folded exactly if it is an accessor of one of the properties, and then each of them
hears it. -/
theorem foldAccessor?_eq {properties : List PublishedProperty}
    (distinct : (properties.map PublishedProperty.name).Nodup) (method : PublishedMethod) :
    foldAccessor? method properties =
      if method.IsAccessorAmong properties then some (properties.map (·.hear method))
      else none := by
  split
  · rename_i accessor
    obtain ⟨property, member, access, accesses⟩ := accessor
    have found := (find?_name_eq_some_iff distinct).mpr ⟨member, rfl⟩
    have applies := PublishedMethod.isAccessedBy_iff.mpr accesses.typed
    have heard : ∀ other ∈ properties, other.hear method =
        if other.name = property.name then other.describedBy access method.description
        else other := by
      intro other isOther
      split
      · rename_i sameName
        obtain rfl := List.inj_on_of_nodup_map distinct isOther member sameName
        exact PublishedProperty.hear_of_accesses accesses
      · rename_i otherName
        exact PublishedProperty.hear_of_not fun ⟨_, also⟩ => otherName (also.unique accesses).2
    rw [foldAccessor?, AccessorName.ofName?_eq_some_iff.mpr accesses.named]
    simp only [Option.bind_eq_bind, Option.bind_some, found, applies, if_true]
    exact congrArg some (List.map_congr_left heard).symm
  · rename_i noAccessor
    cases folded : foldAccessor? method properties with
    | none => rfl
    | some described =>
      obtain ⟨name, read, folded⟩ := Option.bind_eq_some_iff.mp folded
      obtain ⟨property, found, folded⟩ := Option.bind_eq_some_iff.mp folded
      obtain ⟨member, sameName⟩ := (find?_name_eq_some_iff distinct).mp found
      split_ifs at folded with applies
      have named : AccessorName.ofName? method.name = some ⟨name.access, property.name⟩ := by
        rw [read, sameName]
      exact absurd ⟨property, member, name.access, AccessorName.ofName?_eq_some_iff.mp named,
        PublishedMethod.isAccessedBy_iff.mp applies⟩ noAccessor

theorem names_map_hear (properties : List PublishedProperty) (method : PublishedMethod) :
    (properties.map (·.hear method)).map PublishedProperty.name =
      properties.map PublishedProperty.name := by
  rw [List.map_map]
  exact List.map_congr_left fun property _ => property.name_hear method

theorem isAccessorAmong_map_hear {properties : List PublishedProperty}
    {method other : PublishedMethod} :
    other.IsAccessorAmong (properties.map (·.hear method)) ↔ other.IsAccessorAmong properties := by
  simp only [PublishedMethod.IsAccessorAmong, PublishedMethod.isAccessorOf_iff, List.mem_map,
    exists_exists_and_eq_and, PublishedProperty.access?_hear]

/-- Folding lets each property hear all methods in their order, and leaves the methods that are
accessors of none. -/
theorem foldAccessors_eq {properties : List PublishedProperty}
    (distinct : (properties.map PublishedProperty.name).Nodup) (methods : List PublishedMethod) :
    foldAccessors properties methods =
      (properties.map fun property => methods.foldl PublishedProperty.hear property,
        methods.filter fun method => ¬ method.IsAccessorAmong properties) := by
  induction methods generalizing properties with
  | nil =>
    rw [foldAccessors, List.filter_nil]
    exact congrArg (·, []) (List.map_id' properties).symm
  | cons method later ih =>
    rw [foldAccessors, foldAccessor?_eq distinct]
    by_cases accessor : method.IsAccessorAmong properties
    · rw [if_pos accessor, List.filter_cons_of_neg (by simpa using accessor)]
      have folded := ih (names_map_hear properties method ▸ distinct)
      simp only [isAccessorAmong_map_hear, List.map_map] at folded
      exact folded
    · have unheard : ∀ property ∈ properties, property.hear method = property := by
        intro property member
        exact PublishedProperty.hear_of_not fun isAccessor =>
          accessor ⟨property, member, isAccessor⟩
      have heard : (properties.map fun property =>
          (method :: later).foldl PublishedProperty.hear property) =
          properties.map fun property => later.foldl PublishedProperty.hear property := by
        refine List.map_congr_left fun property member => ?_
        rw [List.foldl_cons, unheard property member]
      rw [if_neg accessor, List.filter_cons_of_pos (by simpa using accessor), heard, ih distinct]

end ApiReference
