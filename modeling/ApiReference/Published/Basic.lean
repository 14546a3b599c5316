import ApiReference.Member.Method
import ApiReference.Event.Table

/-!
# Published documentation

What is left of a library when it is published: types are display texts, descriptions are cleaned,
and there is nothing about scopes.  A method also carries the text of its parameter list as it is
shown in a listing.
-/

namespace ApiReference

set_option autoImplicit false

/-- A parameter as it is published. -/
structure PublishedParameter where
  name : String
  description : String
  type : String
deriving DecidableEq, Repr, Inhabited

/-- A method as it is published. -/
structure PublishedMethod where
  name : String
  description : String
  returnType : String
  /-- The parameter list in parentheses. -/
  parameters : String
  parameterList : List PublishedParameter
  isStatic : Bool
  exceptions : List RaisedException
deriving DecidableEq, Repr, Inhabited

/-- A property as it is published. -/
structure PublishedProperty where
  name : String
  description : String
  type : String
  readOnly : Bool
  isStatic : Bool
deriving DecidableEq, Repr, Inhabited

/-- An enumeration or a set of flags as it is published. -/
structure PublishedEnumeration where
  name : String
  description : String
  values : List String
deriving DecidableEq, Repr, Inhabited

/-- A class as it is published. -/
structure PublishedClass where
  name : String
  base? : Option String
  description : String
  methods : List PublishedMethod
  properties : List PublishedProperty
  eventsSent : List String
  eventsListened : List String
deriving DecidableEq, Repr, Inhabited

/-- A library as it is published. -/
structure PublishedLibrary where
  classes : List PublishedClass
  events : List Event
  enumerations : List PublishedEnumeration
  flags : List PublishedEnumeration
deriving DecidableEq, Repr, Inhabited

/-- The published class of a name. -/
def PublishedLibrary.class? (library : PublishedLibrary) (name : String) :
    Option PublishedClass :=
  library.classes.find? (·.name = name)

end ApiReference
