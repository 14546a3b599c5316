import ApiReference.Json.Record
import ApiReference.Json.Writer
import ApiReference.Published.Basic

/-!
# Published documentation as text

The fields of the published parts in the order in which they are written, which is also their order
when a part is read from a list.  A class without a base and a method without exceptions are written
without these fields.
-/

namespace ApiReference

set_option autoImplicit false

/-! ## Exceptions and events -/

/-- The fields of an exception. -/
def RaisedException.shape : RecordShape RaisedException where
  default := ⟨"", ""⟩
  fields :=
    [.mandatory "title" readText fun exception title => { exception with title },
      .mandatory "message" readText fun exception message => { exception with message }]

/-- An exception as it is written. -/
def RaisedException.toJson (exception : RaisedException) : JsonValue :=
  .record [("title", .text exception.title), ("message", .text exception.message)]

/-- The fields of an event. -/
def Event.shape : RecordShape Event where
  default := ⟨"", [], []⟩
  fields :=
    [.mandatory "name" readText fun event name => { event with name },
      .optional "senders" (readList readText) fun event senders => { event with senders },
      .optional "listeners" (readList readText) fun event listeners => { event with listeners }]

/-- An event as it is written. -/
def Event.toJson (event : Event) : JsonValue :=
  .record
    [("name", .text event.name), ("senders", .texts event.senders),
      ("listeners", .texts event.listeners)]

/-! ## Members -/

namespace PublishedParameter

/-- The fields of a published parameter. -/
def shape : RecordShape PublishedParameter where
  default := ⟨"", "", ""⟩
  fields :=
    [.mandatory "name" readText fun parameter name => { parameter with name },
      .mandatory "description" readText fun parameter description =>
        { parameter with description },
      .mandatory "type" readText fun parameter type => { parameter with type }]

/-- A published parameter as it is written. -/
def toJson (parameter : PublishedParameter) : JsonValue :=
  .record
    [("name", .text parameter.name), ("description", .text parameter.description),
      ("type", .text parameter.type)]

end PublishedParameter

namespace PublishedMethod

/-- The fields of a published method. -/
def shape : RecordShape PublishedMethod where
  default := ⟨"", "", "", "", [], false, []⟩
  fields :=
    [.mandatory "name" readText fun method name => { method with name },
      .mandatory "description" readText fun method description => { method with description },
      .mandatory "return_type" readText fun method returnType => { method with returnType },
      .mandatory "parameters" readText fun method parameters => { method with parameters },
      .mandatory "parameter_list" (readList (readRecord PublishedParameter.shape))
        fun method parameterList => { method with parameterList },
      .optional "is_static" readFlag fun method isStatic => { method with isStatic },
      .optional "exceptions" (readList (readRecord RaisedException.shape))
        fun method exceptions => { method with exceptions }]

/-- A published method as it is written. -/
def toJson (method : PublishedMethod) : JsonValue :=
  .record <|
    [("name", .text method.name), ("description", .text method.description),
      ("return_type", .text method.returnType), ("parameters", .text method.parameters),
      ("parameter_list", .list (method.parameterList.map PublishedParameter.toJson)),
      ("is_static", .flag method.isStatic)] ++
    if method.exceptions.isEmpty then []
    else [("exceptions", .list (method.exceptions.map RaisedException.toJson))]

end PublishedMethod

namespace PublishedProperty

/-- The fields of a published property. -/
def shape : RecordShape PublishedProperty where
  default := ⟨"", "", "", false, false⟩
  fields :=
    [.mandatory "name" readText fun property name => { property with name },
      .mandatory "description" readText fun property description =>
        { property with description },
      .mandatory "type" readText fun property type => { property with type },
      .optional "read_only" readFlag fun property readOnly => { property with readOnly },
      .optional "is_static" readFlag fun property isStatic => { property with isStatic }]

/-- A published property as it is written. -/
def toJson (property : PublishedProperty) : JsonValue :=
  .record
    [("name", .text property.name), ("description", .text property.description),
      ("type", .text property.type), ("read_only", .flag property.readOnly),
      ("is_static", .flag property.isStatic)]

end PublishedProperty

/-! ## Classes and libraries -/

namespace PublishedEnumeration

/-- The fields of a published enumeration. -/
def shape : RecordShape PublishedEnumeration where
  default := ⟨"", "", []⟩
  fields :=
    [.mandatory "name" readText fun enumeration name => { enumeration with name },
      .mandatory "description" readText fun enumeration description =>
        { enumeration with description },
      .mandatory "values" (readList readText) fun enumeration values =>
        { enumeration with values }]

/-- A published enumeration as it is written. -/
def toJson (enumeration : PublishedEnumeration) : JsonValue :=
  .record
    [("name", .text enumeration.name), ("description", .text enumeration.description),
      ("values", .texts enumeration.values)]

end PublishedEnumeration

namespace PublishedClass

/-- The fields of a published class. -/
def shape : RecordShape PublishedClass where
  default := ⟨"", none, "", [], [], [], []⟩
  fields :=
    [.mandatory "name" readText fun page name => { page with name },
      .optional "base" (readOptional readText) fun page base? => { page with base? },
      .mandatory "description" readText fun page description => { page with description },
      .mandatory "methods" (readList (readRecord PublishedMethod.shape))
        fun page methods => { page with methods },
      .mandatory "properties" (readList (readRecord PublishedProperty.shape))
        fun page properties => { page with properties },
      .optional "events_sent" (readList readText) fun page eventsSent =>
        { page with eventsSent },
      .optional "events_listened" (readList readText) fun page eventsListened =>
        { page with eventsListened }]

/-- A published class as it is written. -/
def toJson (page : PublishedClass) : JsonValue :=
  .record <|
    [("name", .text page.name)] ++
    (page.base?.map fun base => ("base", JsonValue.text base)).toList ++
    [("description", .text page.description),
      ("methods", .list (page.methods.map PublishedMethod.toJson)),
      ("properties", .list (page.properties.map PublishedProperty.toJson)),
      ("events_sent", .texts page.eventsSent),
      ("events_listened", .texts page.eventsListened)]

end PublishedClass

namespace PublishedLibrary

/-- The fields of a published library. -/
def shape : RecordShape PublishedLibrary where
  default := ⟨[], [], [], []⟩
  fields :=
    [.mandatory "classes" (readList (readRecord PublishedClass.shape))
        fun library classes => { library with classes },
      .mandatory "events" (readList (readRecord Event.shape))
        fun library events => { library with events },
      .optional "enums" (readList (readRecord PublishedEnumeration.shape))
        fun library enumerations => { library with enumerations },
      .optional "flags" (readList (readRecord PublishedEnumeration.shape))
        fun library flags => { library with flags }]

/-- Read a published library. -/
def ofText (text : String) : Except JsonFailure PublishedLibrary :=
  readWholeText (readRecord shape) text

/-- A published library as it is written. -/
def toJson (library : PublishedLibrary) : JsonValue :=
  .record
    [("classes", .list (library.classes.map PublishedClass.toJson)),
      ("events", .list (library.events.map Event.toJson)),
      ("enums", .list (library.enumerations.map PublishedEnumeration.toJson)),
      ("flags", .list (library.flags.map PublishedEnumeration.toJson))]

/-- The text of a published library. -/
def render (library : PublishedLibrary) : String :=
  library.toJson.render

end PublishedLibrary

end ApiReference
