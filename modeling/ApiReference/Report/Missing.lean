import ApiReference.Diagnostic.Finding
import ApiReference.Published.Accessor
import ApiReference.Report.IgnoreList

/-!
# Missing descriptions

The report names every published class, method and property without a description.  An ignored class
is left out with all its members, an ignored member alone; and nobody is asked to describe the
generated accessors of vector components such as `GetXy`.
-/

namespace ApiReference

set_option autoImplicit false

/-- The letters of vector components. -/
def isComponent (character : Char) : Bool :=
  ['X', 'Y', 'Z', 'W'].contains character.toUpper

/-- The name without `get` or `set` in front, in whatever case. -/
def withoutAccess (name : List Char) : List Char :=
  if lowerBeginning 3 name = ['g', 'e', 't'] ∨ lowerBeginning 3 name = ['s', 'e', 't'] then
    name.drop 3
  else name

/-- The name consists of one to four vector components, perhaps behind `get` or `set`. -/
def isComponentName (name : String) : Bool :=
  let components := withoutAccess name.toList
  1 ≤ components.length && components.length ≤ 4 && components.all isComponent

/-- The members and classes of a name are left out of the report. -/
def isIgnored (ignore? : Option IgnoreList) (name : String) : Bool :=
  ignore?.any (·.contains name)

/-- The member has to be described. -/
def wantsDescription (ignore? : Option IgnoreList) (name description : String) : Bool :=
  description = "" && !isIgnored ignore? name && !isComponentName name

namespace PublishedClass

/-- What of a class has no description: the class, then its methods, then its properties. -/
def undocumented (ignore? : Option IgnoreList) (page : PublishedClass) :
    List UndocumentedItem :=
  if isIgnored ignore? page.name then []
  else
    (if page.description = "" then [.classPage page.name] else []) ++
    (page.methods.filter fun method =>
      wantsDescription ignore? method.name method.description).map
        (fun method => .method page.name method.name) ++
    (page.properties.filter fun property =>
      wantsDescription ignore? property.name property.description).map
        (fun property => .property page.name property.name)

end PublishedClass

/-- What of a library has no description. -/
def PublishedLibrary.undocumented (ignore? : Option IgnoreList) (library : PublishedLibrary) :
    List UndocumentedItem :=
  library.classes.flatMap (PublishedClass.undocumented ignore?)

end ApiReference
