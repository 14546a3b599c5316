import ApiReference.Member.Method
import ApiReference.Member.Property
import ApiReference.Text.NameList

/-!
# Class pages

The page of a class holds its members and the events it sends and listens to.  Methods of one name
stand together, in the order in which they were added.  A method that is added is absorbed into the
first overload it agrees with, and otherwise goes behind the last method of its name, so that no
two methods of a page declare the same overload.  Substituting aliases may make overloads equal;
therefore all methods are added anew afterwards.
-/

namespace ApiReference

set_option autoImplicit false

/-! ## Lists of methods -/

/-- A method found by its signature: where it stands, and how it agrees. -/
structure MatchingMethod where
  position : Nat
  method : Method
  agreement : Agreement
deriving DecidableEq, Repr

namespace Method

/-- The first method of a list that agrees with a signature. -/
def matching? (signature : Signature) : List Method → Option MatchingMethod
  | [] => none
  | first :: later =>
    match first.signature.agreement? signature with
    | some agreement => some ⟨0, first, agreement⟩
    | none =>
      (matching? signature later).map fun found => { found with position := found.position + 1 }

/-- Put a method behind the last one of its name, if there is one. -/
def insertBehindNamesake? (method : Method) : List Method → Option (List Method)
  | [] => none
  | first :: later =>
    match insertBehindNamesake? method later with
    | some inserted => some (first :: inserted)
    | none => if first.name = method.name then some (first :: method :: later) else none

/-- Put a method behind the last one of its name, or else at the end. -/
def insertGrouped (methods : List Method) (method : Method) : List Method :=
  (insertBehindNamesake? method methods).getD (methods ++ [method])

/-- Let the method at a found place absorb another declaration. -/
def absorbAt (found : MatchingMethod) (later : Method) (methods : List Method) : List Method :=
  methods.modify found.position fun earlier => earlier.absorb later found.agreement

/-- Add a method: the first overload it agrees with absorbs it, otherwise it is put in. -/
def addTo (methods : List Method) (method : Method) : List Method :=
  match matching? method.signature methods with
  | some found => absorbAt found method methods
  | none => insertGrouped methods method

/-- Add the methods of a list one after the other, so that equal overloads become one. -/
def deduplicate (methods : List Method) : List Method :=
  methods.foldl addTo []

/-- Record an exception with the first method of a name; the flag tells whether it is new. -/
def addExceptionTo (name : String) (exception : RaisedException) :
    List Method → List Method × Bool
  | [] => ([], false)
  | first :: later =>
    if first.name = name then
      (first.addException exception :: later, exception ∉ first.exceptions)
    else
      let (changed, isNew) := addExceptionTo name exception later
      (first :: changed, isNew)

end Method

/-! ## Pages -/

/-- The page of a class. -/
structure ClassPage where
  name : String
  base? : Option String
  scope : Scope
  description : String
  methods : List Method
  properties : List Property
  eventsSent : List String
  eventsListened : List String
deriving DecidableEq, Repr, Inhabited

namespace ClassPage

/-- A page with nothing but a name. -/
def ofName (name : String) : ClassPage :=
  ⟨name, none, .outermost, "", [], [], [], []⟩

/-- The overloads of a name. -/
def methodsNamed (page : ClassPage) (name : String) : List Method :=
  page.methods.filter (·.name = name)

/-- Some method has the name. -/
def hasMethod (page : ClassPage) (name : String) : Bool :=
  page.methods.any (·.name = name)

/-- The first method that agrees with a signature. -/
def matching? (page : ClassPage) (signature : Signature) : Option MatchingMethod :=
  Method.matching? signature page.methods

/-- A method that is added would be a new overload. -/
def isNewOverload (page : ClassPage) (method : Method) : Bool :=
  (page.matching? method.signature).isNone

/-- Add a method, or let the overload it agrees with absorb it. -/
def addMethod (page : ClassPage) (method : Method) : ClassPage :=
  { page with methods := Method.addTo page.methods method }

/-- Some property has the name. -/
def hasProperty (page : ClassPage) (name : String) : Bool :=
  page.properties.any (·.name = name)

/-- Add a property, unless there is one of that name. -/
def addProperty (page : ClassPage) (property : Property) : ClassPage :=
  if page.hasProperty property.name then page
  else { page with properties := page.properties ++ [property] }

/-- The first description among the methods of a name that is not empty. -/
def descriptionFor? (page : ClassPage) (name : String) : Option String :=
  ((page.methodsNamed name).map Method.description).find? (· ≠ "")

/-- Record an exception with the first overload of a name; the flag tells whether it is new. -/
def addException (page : ClassPage) (name : String) (exception : RaisedException) :
    ClassPage × Bool :=
  let (methods, isNew) := Method.addExceptionTo name exception page.methods
  ({ page with methods }, isNew)

/-- Substitute aliases in the types of all members, and make one of overloads that become equal. -/
def normalize (expanded : ExpandedTable) (page : ClassPage) : ClassPage :=
  { page with
    properties := page.properties.map (Property.normalize expanded page.scope)
    methods := Method.deduplicate (page.methods.map (Method.normalize expanded page.scope)) }

/-- Order the members by name; overloads keep their order. -/
def sort (page : ClassPage) : ClassPage :=
  { page with
    methods := sortByName Method.name page.methods
    properties := sortByName Property.name page.properties }

/-- Order the lists of events and name each event once. -/
def pruneEvents (page : ClassPage) : ClassPage :=
  { page with
    eventsSent := sortedNames page.eventsSent
    eventsListened := sortedNames page.eventsListened }

/-! ## What keeps the name -/

@[simp]
theorem name_addException (method : String) (exception : RaisedException) (page : ClassPage) :
    (page.addException method exception).1.name = page.name := rfl

@[simp]
theorem name_normalize (expanded : ExpandedTable) (page : ClassPage) :
    (page.normalize expanded).name = page.name := rfl

@[simp]
theorem name_sort (page : ClassPage) : page.sort.name = page.name := rfl

@[simp]
theorem name_pruneEvents (page : ClassPage) : page.pruneEvents.name = page.name := rfl

end ClassPage

end ApiReference
