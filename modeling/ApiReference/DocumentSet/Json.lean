import ApiReference.DocumentSet.Basic
import ApiReference.Json.Record
import ApiReference.Json.Writer

/-!
# Document sets as text

The fields of the parts of a document set.  Most of them may be left out; a part has to have its
name, an alias its declaration, and a comment its class and its method.
-/

namespace ApiReference

set_option autoImplicit false

/-! ## Aliases and comments -/

namespace ListedAlias

/-- The fields of a listed alias. -/
def shape : RecordShape ListedAlias where
  default := ⟨[], "", ""⟩
  fields :=
    [.optional "namespace" (readList readText) fun listed scope => { listed with scope },
      .mandatory "name" readText fun listed name => { listed with name },
      .mandatory "declaration" readText fun listed declaration =>
        { listed with declaration }]

/-- A listed alias as it is written. -/
def toJson (listed : ListedAlias) : JsonValue :=
  .record
    [("namespace", .texts listed.scope), ("name", .text listed.name),
      ("declaration", .text listed.declaration)]

end ListedAlias

/-! ## Members -/

namespace ListedParameter

/-- The fields of a listed parameter. -/
def shape : RecordShape ListedParameter where
  default := ⟨"", "", ""⟩
  fields :=
    [.optional "name" readText fun listed name => { listed with name },
      .optional "type" readText fun listed type => { listed with type },
      .optional "description" readText fun listed description => { listed with description }]

/-- A listed parameter as it is written. -/
def toJson (listed : ListedParameter) : JsonValue :=
  .record
    [("name", .text listed.name), ("type", .text listed.type),
      ("description", .text listed.description)]

end ListedParameter

namespace ListedMethod

/-- The fields of a listed method. -/
def shape : RecordShape ListedMethod where
  default := ⟨"", "", "", [], false⟩
  fields :=
    [.mandatory "name" readText fun listed name => { listed with name },
      .optional "description" readText fun listed description => { listed with description },
      .optional "return_type" readText fun listed returnType => { listed with returnType },
      .optional "parameters" (readList (readRecord ListedParameter.shape))
        fun listed parameters => { listed with parameters },
      .optional "is_static" readFlag fun listed isStatic => { listed with isStatic }]

/-- A listed method as it is written. -/
def toJson (listed : ListedMethod) : JsonValue :=
  .record
    [("name", .text listed.name), ("description", .text listed.description),
      ("return_type", .text listed.returnType),
      ("parameters", .list (listed.parameters.map ListedParameter.toJson)),
      ("is_static", .flag listed.isStatic)]

end ListedMethod

namespace ListedProperty

/-- The fields of a listed property. -/
def shape : RecordShape ListedProperty where
  default := ⟨"", "", "", false, false⟩
  fields :=
    [.mandatory "name" readText fun listed name => { listed with name },
      .optional "type" readText fun listed type => { listed with type },
      .optional "description" readText fun listed description => { listed with description },
      .optional "read_only" readFlag fun listed readOnly => { listed with readOnly },
      .optional "is_static" readFlag fun listed isStatic => { listed with isStatic }]

/-- A listed property as it is written. -/
def toJson (listed : ListedProperty) : JsonValue :=
  .record
    [("name", .text listed.name), ("type", .text listed.type),
      ("description", .text listed.description), ("read_only", .flag listed.readOnly),
      ("is_static", .flag listed.isStatic)]

end ListedProperty

/-! ## Classes, enumerations and comments -/

namespace ListedEnumeration

/-- The fields of a listed enumeration. -/
def shape : RecordShape ListedEnumeration where
  default := ⟨"", [], ""⟩
  fields :=
    [.mandatory "name" readText fun listed name => { listed with name },
      .optional "values" (readList readText) fun listed values => { listed with values },
      .optional "description" readText fun listed description => { listed with description }]

/-- A listed enumeration as it is written. -/
def toJson (listed : ListedEnumeration) : JsonValue :=
  .record
    [("name", .text listed.name), ("values", .texts listed.values),
      ("description", .text listed.description)]

end ListedEnumeration

namespace ListedClass

/-- The fields of a listed class. -/
def shape : RecordShape ListedClass where
  default := ⟨"", "", [], "", [], [], [], []⟩
  fields :=
    [.mandatory "name" readText fun listed name => { listed with name },
      .optional "base" readText fun listed base => { listed with base },
      .optional "namespace" (readList readText) fun listed scope => { listed with scope },
      .optional "description" readText fun listed description => { listed with description },
      .optional "methods" (readList (readRecord ListedMethod.shape))
        fun listed methods => { listed with methods },
      .optional "properties" (readList (readRecord ListedProperty.shape))
        fun listed properties => { listed with properties },
      .optional "source_lines" (readList readText) fun listed sourceLines =>
        { listed with sourceLines },
      .optional "header_lines" (readList readText) fun listed headerLines =>
        { listed with headerLines }]

/-- A listed class as it is written. -/
def toJson (listed : ListedClass) : JsonValue :=
  .record
    [("name", .text listed.name), ("base", .text listed.base),
      ("namespace", .texts listed.scope), ("description", .text listed.description),
      ("methods", .list (listed.methods.map ListedMethod.toJson)),
      ("properties", .list (listed.properties.map ListedProperty.toJson)),
      ("source_lines", .texts listed.sourceLines), ("header_lines", .texts listed.headerLines)]

end ListedClass

namespace ListedComment

/-- The fields of a listed comment. -/
def shape : RecordShape ListedComment where
  default := ⟨"", default⟩
  fields :=
    [.mandatory "class" readText fun listed className => { listed with className },
      .mandatory "method" (readRecord ListedMethod.shape) fun listed method =>
        { listed with method }]

/-- A listed comment as it is written. -/
def toJson (listed : ListedComment) : JsonValue :=
  .record [("class", .text listed.className), ("method", listed.method.toJson)]

end ListedComment

/-! ## Document sets -/

namespace DocumentSet

/-- The fields of a document set. -/
def shape : RecordShape DocumentSet where
  default := ⟨[], [], [], [], [], []⟩
  fields :=
    [.optional "typedefs" (readList (readRecord ListedAlias.shape))
        fun documents aliases => { documents with aliases },
      .optional "classes" (readList (readRecord ListedClass.shape))
        fun documents classes => { documents with classes },
      .optional "events" (readList readText) fun documents events =>
        { documents with events },
      .optional "comments" (readList (readRecord ListedComment.shape))
        fun documents comments => { documents with comments },
      .optional "enums" (readList (readRecord ListedEnumeration.shape))
        fun documents enumerations => { documents with enumerations },
      .optional "flags" (readList (readRecord ListedEnumeration.shape))
        fun documents flags => { documents with flags }]

/-- Read a document set. -/
def ofText (text : String) : Except JsonFailure DocumentSet :=
  readWholeText (readRecord shape) text

/-- A document set as it is written, with every field. -/
def toJson (documents : DocumentSet) : JsonValue :=
  .record
    [("typedefs", .list (documents.aliases.map ListedAlias.toJson)),
      ("classes", .list (documents.classes.map ListedClass.toJson)),
      ("events", .texts documents.events),
      ("comments", .list (documents.comments.map ListedComment.toJson)),
      ("enums", .list (documents.enumerations.map ListedEnumeration.toJson)),
      ("flags", .list (documents.flags.map ListedEnumeration.toJson))]

end DocumentSet

end ApiReference
