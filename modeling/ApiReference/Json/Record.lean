import ApiReference.Json.Skip

/-!
# Reading values of a known shape

Readers for texts, flags, lists and records.  A record is described by a `RecordShape`: a value with
all fields at their defaults, and for every field a reader of the change it makes to that value.

A record may be written as an object, where the order of the fields is free, unknown fields are
skipped and no known field may come twice; or as a list of its fields in their order, of which the
last ones may be left out.  A field without a default has to be there in both forms.
-/

namespace ApiReference

set_option autoImplicit false

/-! ## Values of another shape -/

/-- The failure of the first of two steps, or that the shape is wrong. -/
def failureOr {α : Type} : Except JsonFailure α → JsonFailure
  | .error failure => failure
  | .ok _ => .wrongShape

/-- Why the value at the head of a text is refused for its shape.  Text, numbers and the letters of
constants must be well-formed before their shape counts; lists and objects are not looked into. -/
def shapeFailure (text : List Char) : JsonFailure :=
  match text with
  | [] => .endOfText
  | first :: following =>
    if first = '"' then failureOr (readUpToQuote strictEscape following)
    else if first = '[' ∨ first = '\x7b' then .wrongShape
    else if first = '-' ∨ first.isDigit then
      match readNumeral .endOfText (first :: following) with
      | .error failure => failure
      | .ok numeral => if numeral.value.isTooLarge then .malformed else .wrongShape
    else
      match lettersAfter? first with
      | none => .malformed
      | some letters => failureOr (passLetters letters following)

/-! ## Texts and flags -/

/-- Read a text. -/
def readText : JsonReader String := fun text =>
  match head : skipSpaces text with
  | [] => .error .endOfText
  | first :: following =>
    if first = '"' then do
      let quoted ← readUpToQuote strictEscape following
      .ok ⟨String.ofList quoted.value, quoted.rest,
        Nat.lt_trans quoted.shorter (length_lt_of_skipSpaces head)⟩
    else .error (shapeFailure (first :: following))

/-- Read a constant that opens with the first of the text's characters. -/
def readConstant {α : Type} (value : α) (letters : List Char) : JsonReader α := fun text =>
  match head : skipSpaces text with
  | [] => .error .endOfText
  | _ :: following =>
    match passed : passLetters letters following with
    | .error failure => .error failure
    | .ok rest =>
      .ok ⟨value, rest,
        Nat.lt_of_le_of_lt (passLetters_length passed) (length_lt_of_skipSpaces head)⟩

/-- Read `true` or `false`. -/
def readFlag : JsonReader Bool := fun text =>
  match skipSpaces text with
  | 't' :: _ => readConstant true ['r', 'u', 'e'] text
  | 'f' :: _ => readConstant false ['a', 'l', 's', 'e'] text
  | other => .error (shapeFailure other)

/-- Read a value, or `null` in its place. -/
def readOptional {α : Type} (item : JsonReader α) : JsonReader (Option α) := fun text =>
  match skipSpaces text with
  | 'n' :: _ => readConstant none ['u', 'l', 'l'] text
  | _ => do
    let reading ← item text
    .ok (reading.withValue (some reading.value))

/-! ## Lists -/

/-- What comes next in a list: its end, or the text of a further element. -/
inductive NextElement (text : List Char) where
  | closed (rest : List Char) (shorter : rest.length < text.length)
  | element (rest : List Char) (notLonger : rest.length ≤ text.length)

/-- Look for the next element of a list.  A comma must stand before all but the first, and an
element behind every comma. -/
def nextElement (isFirst : Bool) (text : List Char) : Except JsonFailure (NextElement text) :=
  match head : skipSpaces text with
  | [] => .error .endOfText
  | mark :: following =>
    if mark = ']' then .ok (.closed following (length_lt_of_skipSpaces head))
    else if isFirst then .ok (.element text (length_le_self text))
    else if mark = ',' then
      match skipSpaces following with
      | [] => .error .endOfText
      | first :: _ =>
        if first = ']' then .error .malformed
        else .ok (.element following (Nat.le_of_lt (length_lt_of_skipSpaces head)))
    else .error .malformed

/-- Read the elements of a list and its end. -/
def readElements {α : Type} (item : JsonReader α) (isFirst : Bool) (text : List Char) :
    Except JsonFailure (Reading (List α) text) := do
  match ← nextElement isFirst text with
  | .closed rest shorter => .ok ⟨[], rest, shorter⟩
  | .element start notLonger =>
    let element ← item start
    have elementShorter := element.shorter
    let later ← readElements item false element.rest
    .ok ⟨element.value :: later.value, later.rest, by have := later.shorter; omega⟩
termination_by text.length

/-- Read a list. -/
def readList {α : Type} (item : JsonReader α) : JsonReader (List α) := fun text =>
  match head : skipSpaces text with
  | [] => .error .endOfText
  | first :: following =>
    if first = '[' then do
      let elements ← readElements item true following
      .ok (elements.ofLe (Nat.le_of_lt (length_lt_of_skipSpaces head)))
    else .error (shapeFailure (first :: following))

/-! ## Records -/

/-- A field of a record: its name, whether it must be there, and a reader of what it changes. -/
structure RecordField (ρ : Type) where
  name : String
  required : Bool
  read : JsonReader (ρ → ρ)

namespace RecordField

/-- A field that may be left out. -/
def optional {ρ α : Type} (name : String) (item : JsonReader α) (set : ρ → α → ρ) :
    RecordField ρ :=
  ⟨name, false, fun text => do
    let reading ← item text
    .ok (reading.withValue fun record => set record reading.value)⟩

/-- A field that must be there. -/
def mandatory {ρ α : Type} (name : String) (item : JsonReader α) (set : ρ → α → ρ) :
    RecordField ρ :=
  { optional name item set with required := true }

end RecordField

/-- A record with its defaults and its fields in their order. -/
structure RecordShape (ρ : Type) where
  default : ρ
  fields : List (RecordField ρ)

/-- Read the fields of a record from the elements of a list, and the end of the list. -/
def readInOrder {ρ : Type} (record : ρ) (isFirst : Bool) :
    List (RecordField ρ) → (text : List Char) → Except JsonFailure (Reading ρ text)
  | [], text => do
    let mark ← passMark ']' text
    .ok (mark.withValue record)
  | field :: later, text => do
    match ← nextElement isFirst text with
    | .closed rest shorter =>
      if (field :: later).any RecordField.required then .error .wrongShape
      else .ok ⟨record, rest, shorter⟩
    | .element start notLonger =>
      let change ← field.read start
      let reading ← readInOrder (change.value record) false later change.rest
      .ok (reading.ofLe (Nat.le_trans (Nat.le_of_lt change.shorter) notLonger))

/-- What comes next in an object: its end, or the text of a key behind its quote. -/
inductive NextKey (text : List Char) where
  | closed (rest : List Char) (shorter : rest.length < text.length)
  | key (rest : List Char) (shorter : rest.length < text.length)

/-- Look for the next key of an object.  A comma must stand before all but the first, and a key
behind every comma. -/
def nextKey (isFirst : Bool) (text : List Char) : Except JsonFailure (NextKey text) :=
  match head : skipSpaces text with
  | [] => .error .endOfText
  | mark :: following =>
    have shorter := length_lt_of_skipSpaces head
    if mark = '\x7d' then .ok (.closed following shorter)
    else if isFirst then
      if mark = '"' then .ok (.key following shorter) else .error .malformed
    else if mark = ',' then
      match head' : skipSpaces following with
      | [] => .error .endOfText
      | quote :: beyond =>
        if quote = '"' then
          .ok (.key beyond (Nat.lt_trans (length_lt_of_skipSpaces head') shorter))
        else .error .malformed
    else .error .malformed

/-- Read the fields of a record from the members of an object, and the end of the object.  The names
in `seen` are those of the known fields that have come already. -/
def readMembers {ρ : Type} (fields : List (RecordField ρ)) (record : ρ) (seen : List String)
    (isFirst : Bool) (text : List Char) : Except JsonFailure (Reading ρ text) := do
  match ← nextKey isFirst text with
  | .closed rest shorter =>
    if fields.any fun field => field.required && !seen.contains field.name then .error .wrongShape
    else .ok ⟨record, rest, shorter⟩
  | .key start startShorter =>
    let key ← readUpToQuote strictEscape start
    have keyShorter := key.shorter
    let name := String.ofList key.value
    match fields.find? (·.name = name) with
    | some field =>
      if seen.contains name then .error .wrongShape
      else
        let colon ← passMark ':' key.rest
        have colonShorter := colon.shorter
        let change ← field.read colon.rest
        have changeShorter := change.shorter
        let reading ← readMembers fields (change.value record) (name :: seen) false change.rest
        .ok (reading.ofLe (by omega))
    | none =>
      let colon ← passMark ':' key.rest
      have colonShorter := colon.shorter
      let skipped ← skipValue [] colon.rest
      have skippedShorter := skipped.shorter
      let reading ← readMembers fields record seen false skipped.rest
      .ok (reading.ofLe (by omega))
termination_by text.length

/-- Read a record in either of its forms. -/
def readRecord {ρ : Type} (shape : RecordShape ρ) : JsonReader ρ := fun text =>
  match head : skipSpaces text with
  | [] => .error .endOfText
  | first :: following =>
    have shorter := length_lt_of_skipSpaces head
    if first = '[' then do
      let reading ← readInOrder shape.default true shape.fields following
      .ok (reading.ofLe (Nat.le_of_lt shorter))
    else if first = '\x7b' then do
      let reading ← readMembers shape.fields shape.default [] true following
      .ok (reading.ofLe (Nat.le_of_lt shorter))
    else .error (shapeFailure (first :: following))

/-! ## Whole texts -/

/-- Read a text that holds one value and nothing else. -/
def readWholeText {α : Type} (reader : JsonReader α) (text : String) : Except JsonFailure α := do
  let reading ← reader text.toList
  match skipSpaces reading.rest with
  | [] => .ok reading.value
  | _ :: _ => .error .malformed

end ApiReference
