import ApiReference.Alias.Closure
import ApiReference.Json.Record
import ApiReference.Json.Writer

/-!
# Alias tables as text

An alias table is stored as a list of records, each with the scope, the name and the definition of
an alias.  The definition is stored as the texts of its tokens with single spaces between, which the
lexer reads back.
-/

namespace ApiReference

set_option autoImplicit false

/-- The stored form of an alias. -/
structure AliasRecord where
  scope : List String
  name : String
  definition : String
deriving DecidableEq, Repr, Inhabited

namespace AliasRecord

/-- The stored form of an alias. -/
def ofAlias (entry : Alias) : AliasRecord :=
  ⟨entry.scope.names, entry.name, Token.joinedText entry.definition⟩

/-- The alias that is stored. -/
def toAlias (record : AliasRecord) : Alias :=
  ⟨⟨record.scope⟩, record.name, tokenize record.definition⟩

/-- The fields of a stored alias; only the name must be there. -/
def shape : RecordShape AliasRecord where
  default := ⟨[], "", ""⟩
  fields :=
    [.optional "namespace" (readList readText) fun record scope => { record with scope },
      .mandatory "name" readText fun record name => { record with name },
      .optional "definition" readText fun record definition => { record with definition }]

/-- A stored alias as it is written. -/
def toJson (record : AliasRecord) : JsonValue :=
  .record
    [("namespace", .texts record.scope), ("name", .text record.name),
      ("definition", .text record.definition)]

end AliasRecord

/-- The stored form of an alias table. -/
structure AliasRecords where
  records : List AliasRecord
deriving DecidableEq, Repr, Inhabited

namespace AliasRecords

/-- The aliases of a table in its order. -/
def ofTable (table : AliasTable) : AliasRecords :=
  ⟨table.entries.map AliasRecord.ofAlias⟩

/-- The aliases that are stored. -/
def aliases (stored : AliasRecords) : List Alias :=
  stored.records.map AliasRecord.toAlias

/-- The table of the stored aliases, with a finding for each that is refused. -/
def toTable (stored : AliasRecords) : AliasTable × List Finding :=
  AliasTable.empty.insertAll stored.aliases

/-- The only field of a stored table. -/
def shape : RecordShape AliasRecords where
  default := ⟨[]⟩
  fields :=
    [.optional "typedefs" (readList (readRecord AliasRecord.shape)) fun _ records => ⟨records⟩]

/-- Read a stored table. -/
def ofText (text : String) : Except JsonFailure AliasRecords :=
  readWholeText (readRecord shape) text

/-- A stored table as it is written. -/
def toJson (stored : AliasRecords) : JsonValue :=
  .record [("typedefs", .list (stored.records.map AliasRecord.toJson))]

/-- The text of a stored table. -/
def render (stored : AliasRecords) : String :=
  stored.toJson.render

end AliasRecords

end ApiReference
