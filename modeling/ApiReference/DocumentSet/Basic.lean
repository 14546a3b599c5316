import ApiReference.Library.Basic

/-!
# Document sets

A document set lists everything there is to document as plain text: aliases as they are declared,
classes with the text of their types and the lines of their source, events, comments, enumerations
and flags.  Here the listed parts are turned into aliases and a library.
-/

namespace ApiReference

set_option autoImplicit false

/-! ## The listed parts -/

/-- An alias as it is declared. -/
structure ListedAlias where
  scope : List String
  name : String
  declaration : String
deriving DecidableEq, Repr, Inhabited

/-- A parameter with the text of its type. -/
structure ListedParameter where
  name : String
  type : String
  description : String
deriving DecidableEq, Repr, Inhabited

/-- A method with the texts of its types. -/
structure ListedMethod where
  name : String
  description : String
  returnType : String
  parameters : List ListedParameter
  isStatic : Bool
deriving DecidableEq, Repr, Inhabited

/-- A property with the text of its type. -/
structure ListedProperty where
  name : String
  type : String
  description : String
  readOnly : Bool
  isStatic : Bool
deriving DecidableEq, Repr, Inhabited

/-- An enumeration or a set of flags. -/
structure ListedEnumeration where
  name : String
  values : List String
  description : String
deriving DecidableEq, Repr, Inhabited

/-- A class with the lines of its source. -/
structure ListedClass where
  name : String
  /-- The base class; empty if there is none. -/
  base : String
  scope : List String
  description : String
  methods : List ListedMethod
  properties : List ListedProperty
  sourceLines : List String
  headerLines : List String
deriving DecidableEq, Repr, Inhabited

/-- A declaration of a method that stands in a source comment. -/
structure ListedComment where
  className : String
  method : ListedMethod
deriving DecidableEq, Repr, Inhabited

/-- Everything there is to document. -/
structure DocumentSet where
  aliases : List ListedAlias
  classes : List ListedClass
  events : List String
  comments : List ListedComment
  enumerations : List ListedEnumeration
  flags : List ListedEnumeration
deriving DecidableEq, Repr, Inhabited

/-! ## Reading the texts -/

/-- The alias that a declaration makes. -/
def ListedAlias.toAlias (listed : ListedAlias) : Alias :=
  .ofDeclaration ⟨listed.scope⟩ listed.name listed.declaration

/-- The parameter with its type read. -/
def ListedParameter.toParameter (listed : ListedParameter) : Parameter :=
  ⟨listed.name, listed.description, tokenize listed.type⟩

/-- The method with its types read. -/
def ListedMethod.toMethod (listed : ListedMethod) : Method where
  name := listed.name
  description := listed.description
  parameters := listed.parameters.map ListedParameter.toParameter
  returnType := tokenize listed.returnType
  isStatic := listed.isStatic
  exceptions := []

/-- The property with its type read. -/
def ListedProperty.toProperty (listed : ListedProperty) : Property :=
  ⟨listed.name, listed.description, tokenize listed.type, listed.readOnly, listed.isStatic⟩

/-- The enumeration. -/
def ListedEnumeration.toEnumeration (listed : ListedEnumeration) : Enumeration :=
  ⟨listed.name, listed.description, listed.values⟩

/-- The page of a class, whose source is left aside. -/
def ListedClass.toPage (listed : ListedClass) : ClassPage :=
  let page : ClassPage :=
    { ClassPage.ofName listed.name with
      base? := if listed.base = "" then none else some listed.base
      scope := ⟨listed.scope⟩
      description := listed.description }
  let withMethods := (listed.methods.map ListedMethod.toMethod).foldl ClassPage.addMethod page
  (listed.properties.map ListedProperty.toProperty).foldl ClassPage.addProperty withMethods

namespace DocumentSet

/-- The aliases of a document set in their order. -/
def aliasEntries (documents : DocumentSet) : List Alias :=
  documents.aliases.map ListedAlias.toAlias

/-- The library of a document set, with a finding for every class that is refused. -/
def library (documents : DocumentSet) : Library × List Finding :=
  let (filled, findings) :=
    (Library.ofEvents (.ofNames documents.events)).addPages
      (documents.classes.map ListedClass.toPage)
  ({ filled with
      enumerations := documents.enumerations.map ListedEnumeration.toEnumeration
      flags := documents.flags.map ListedEnumeration.toEnumeration }, findings)

end DocumentSet

end ApiReference
