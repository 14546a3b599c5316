import ApiReference.Alias.Closure

/-!
# Properties and enumerations

The members of a library that have no signature: the properties of a class, and the enumerations and
sets of flags that stand beside the classes.
-/

namespace ApiReference

set_option autoImplicit false

/-- A property of a class. -/
structure Property where
  name : String
  description : String
  type : List Token
  readOnly : Bool
  isStatic : Bool
deriving DecidableEq, Repr, Inhabited

/-- An enumeration or a set of flags, with the names of its values. -/
structure Enumeration where
  name : String
  description : String
  values : List String
deriving DecidableEq, Repr, Inhabited

/-- Substitute aliases in the type of a property. -/
def Property.normalize (expanded : ExpandedTable) (scope : Scope) (property : Property) :
    Property :=
  { property with type := expanded.normalized scope property.type }

end ApiReference
