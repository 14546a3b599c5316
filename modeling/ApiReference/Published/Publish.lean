import ApiReference.Display.Render
import ApiReference.Library.Basic
import ApiReference.Published.Accessor

/-!
# Publishing a library

Every part of a library in its published form, ordered by name.  Methods without a return type are
constructors and destructors, which are not published.  The list of a method's parameters ends
before the first that has no type or is `void`.
-/

namespace ApiReference

set_option autoImplicit false

/-- Make one space of every run of spaces; `afterSpace` tells that a space stands before. -/
def collapseSpaces (afterSpace : Bool) : List Char → List Char
  | [] => []
  | character :: following =>
    if character = ' ' then
      if afterSpace then collapseSpaces true following
      else character :: collapseSpaces true following
    else character :: collapseSpaces false following

/-- A description with single spaces. -/
def cleanDescription (description : String) : String :=
  String.ofList (collapseSpaces false description.toList)

namespace Parameter

/-- The parameter is shown, and does not end the list. -/
def isListed (parameter : Parameter) : Bool :=
  parameter.type.head?.any (·.kind ≠ .void)

/-- A parameter in its published form. -/
def publish (parameter : Parameter) : PublishedParameter :=
  ⟨parameter.name, cleanDescription parameter.description, displayText parameter.type⟩

end Parameter

/-- A parameter in a listing: its type and, if it has one, its name. -/
def PublishedParameter.listing (parameter : PublishedParameter) : String :=
  if parameter.name = "" then parameter.type else parameter.type ++ " " ++ parameter.name

namespace Method

/-- A method in its published form. -/
def publish (method : Method) : PublishedMethod :=
  let parameterList := (method.parameters.takeWhile Parameter.isListed).map Parameter.publish
  { name := method.name
    description := cleanDescription method.description
    returnType := displayText method.returnType
    parameters := "(" ++ ", ".intercalate (parameterList.map PublishedParameter.listing) ++ ")"
    parameterList
    isStatic := method.isStatic
    exceptions := method.exceptions }

end Method

/-- A property in its published form. -/
def Property.publish (property : Property) : PublishedProperty :=
  ⟨property.name, cleanDescription property.description, displayText property.type,
    property.readOnly, property.isStatic⟩

/-- An enumeration in its published form. -/
def Enumeration.publish (enumeration : Enumeration) : PublishedEnumeration :=
  ⟨displayName enumeration.name, cleanDescription enumeration.description, enumeration.values⟩

/-- A class in its published form. -/
def ClassPage.publish (page : ClassPage) : PublishedClass :=
  let methods := (page.methods.filter (!·.returnType.isEmpty)).map Method.publish
  let (properties, listed) := foldAccessors (page.properties.map Property.publish) methods
  { name := page.name
    base? := page.base?
    description := cleanDescription page.description
    methods := listed
    properties
    eventsSent := sortedNames page.eventsSent
    eventsListened := sortedNames page.eventsListened }

/-- A library in its published form. -/
def Library.publish (library : Library) : PublishedLibrary where
  classes := sortByName PublishedClass.name (library.pages.map ClassPage.publish)
  events := sortByName Event.name library.events.events
  enumerations :=
    sortByName PublishedEnumeration.name (library.enumerations.map Enumeration.publish)
  flags := sortByName PublishedEnumeration.name (library.flags.map Enumeration.publish)

end ApiReference
