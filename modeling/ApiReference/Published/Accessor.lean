import ApiReference.Published.Basic

/-!
# Accessors

A method whose name is `get`, `set` or `is`, in any mixture of cases, followed by the exact name of
a property is an accessor of that property, except that a method with `is` must also return the
property's type.  Accessors are not published as methods.  Their descriptions go to the property:
one of `get` or `is` replaces what the property says, one of `set` is taken only while the property
says nothing.

Names of fewer than four characters are never accessors.  A name that opens with `get` or `set` is
not tried with `is`.
-/

namespace ApiReference

set_option autoImplicit false

/-- What an accessor does with its property. -/
inductive Access where
  | get
  | set
  | is
deriving DecidableEq, Repr

/-- The name of an accessor, in its two parts. -/
structure AccessorName where
  access : Access
  property : String
deriving DecidableEq, Repr

/-- The beginning of a name in lower case. -/
def lowerBeginning (length : Nat) (name : List Char) : List Char :=
  (name.take length).map Char.toLower

/-- Read a name as that of an accessor. -/
def AccessorName.ofName? (name : String) : Option AccessorName :=
  let characters := name.toList
  if characters.length < 4 then none
  else if lowerBeginning 3 characters = ['g', 'e', 't'] then
    some ⟨.get, String.ofList (characters.drop 3)⟩
  else if lowerBeginning 3 characters = ['s', 'e', 't'] then
    some ⟨.set, String.ofList (characters.drop 3)⟩
  else if lowerBeginning 2 characters = ['i', 's'] then
    some ⟨.is, String.ofList (characters.drop 2)⟩
  else none

namespace PublishedProperty

/-- The accessor applies to the property. -/
def isAccessedBy (property : PublishedProperty) (access : Access) (method : PublishedMethod) :
    Bool :=
  match access with
  | .get | .set => true
  | .is => property.type = method.returnType

/-- The property with what an accessor of it says. -/
def describedBy (access : Access) (description : String) (property : PublishedProperty) :
    PublishedProperty :=
  match access with
  | .get | .is => if description = "" then property else { property with description }
  | .set => if property.description = "" then { property with description } else property

end PublishedProperty

/-- The properties with what a method says about one of them, if it is an accessor. -/
def foldAccessor? (method : PublishedMethod) (properties : List PublishedProperty) :
    Option (List PublishedProperty) := do
  let name ← AccessorName.ofName? method.name
  let property ← properties.find? (·.name = name.property)
  if property.isAccessedBy name.access method then
    some (properties.map fun other =>
      if other.name = name.property then other.describedBy name.access method.description
      else other)
  else none

/-- Fold the accessors among some methods into the properties, one after the other, and return the
properties with the methods that are left. -/
def foldAccessors (properties : List PublishedProperty) :
    List PublishedMethod → List PublishedProperty × List PublishedMethod
  | [] => (properties, [])
  | method :: later =>
    match foldAccessor? method properties with
    | some described => foldAccessors described later
    | none =>
      let (described, kept) := foldAccessors properties later
      (described, method :: kept)

end ApiReference
