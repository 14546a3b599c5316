import ApiReference.Json.Record
import ApiReference.Json.Writer
import Mathlib.Tactic.SplitIfs

/-!
# Written JSON reads back

`JsonValue.ReadsAs` says that a reader, put before a written value at any depth, takes the value off
the text and stops behind it.  It holds of the reader of texts on every text, whatever characters
are in it, of the reader of lists if it holds of the elements, and of the reader of a record if it
holds of each of its fields (`FieldsReadAs`).  A reader with this property returns the value from
the rendered text (`ReadsAs.readWholeText_render`).
-/

set_option autoImplicit false

namespace ApiReference

/-- The reader takes the value off the head of the text and leaves the rest. -/
def Reads {α : Type} (reader : JsonReader α) (text : List Char) (value : α)
    (rest : List Char) : Prop :=
  ∃ reading, reader text = .ok reading ∧ reading.value = value ∧ reading.rest = rest

/-! ## White space -/

@[simp]
theorem skipSpaces_newLine (depth : Nat) (text : List Char) :
    skipSpaces (JsonValue.newLine depth ++ text) = skipSpaces text := by
  have spaces : ∀ character ∈ JsonValue.newLine depth, isJsonSpace character = true := by
    intro character member
    simp only [JsonValue.newLine, List.mem_cons, List.mem_replicate] at member
    rcases member with rfl | ⟨_, rfl⟩ <;> rfl
  exact List.dropWhile_append_of_pos spaces

theorem skipSpaces_cons {first : Char} (solid : isJsonSpace first = false) (text : List Char) :
    skipSpaces (first :: text) = first :: text := by
  simp [skipSpaces, solid]

/-! ## Quoted text -/

section Quoted

variable {escape : JsonReader Char} {text value rest : List Char}

theorem reads_closingQuote (rest : List Char) :
    Reads (readUpToQuote escape) ('"' :: rest) [] rest := by
  unfold Reads
  rw [readUpToQuote]
  exact ⟨_, rfl, rfl, rfl⟩

/-- A character that needs no escape stands for itself. -/
theorem reads_plainCharacter {character : Char} (noQuote : character ≠ '"')
    (noEscape : character ≠ '\\') (noControl : isControl character = false)
    (reads : Reads (readUpToQuote escape) text value rest) :
    Reads (readUpToQuote escape) (character :: text) (character :: value) rest := by
  obtain ⟨reading, read, rfl, rfl⟩ := reads
  unfold Reads
  rw [readUpToQuote, if_neg noQuote, if_neg noEscape, noControl, read]
  exact ⟨_, rfl, rfl, rfl⟩

/-- An escape stands for the character it is read as. -/
theorem reads_escape {character : Char} {escaped : List Char}
    (readsEscape : Reads escape escaped character text)
    (reads : Reads (readUpToQuote escape) text value rest) :
    Reads (readUpToQuote escape) ('\\' :: escaped) (character :: value) rest := by
  obtain ⟨one, readCharacter, rfl, rfl⟩ := readsEscape
  obtain ⟨reading, read, rfl, rfl⟩ := reads
  unfold Reads
  rw [readUpToQuote, if_neg (by decide), if_pos rfl, readCharacter]
  simp only [bind, Except.bind, read]
  exact ⟨_, rfl, rfl, rfl⟩

end Quoted

theorem hexValue?_hexDigit {value : Nat} (small : value < 16) :
    hexValue? (hexDigit value) = some value := by
  revert value
  decide

/-- Four hexadecimal digits are read as the number they make. -/
theorem reads_codeUnit {high low : Nat} (highSmall : high < 16) (lowSmall : low < 16)
    (rest : List Char) :
    Reads readCodeUnit ('0' :: '0' :: hexDigit high :: hexDigit low :: rest) (high * 16 + low)
      rest := by
  have enough :
      ¬ utf8Length (List.take 4 ('0' :: '0' :: hexDigit high :: hexDigit low :: rest)) < 4 := by
    have highSize := Char.utf8Size_pos (hexDigit high)
    have lowSize := Char.utf8Size_pos (hexDigit low)
    have zeroSize := Char.utf8Size_pos '0'
    simp only [utf8Length, List.take_succ_cons, List.take_zero, List.foldr_cons, List.foldr_nil]
    omega
  have zero : hexValue? '0' = some 0 := rfl
  unfold Reads readCodeUnit
  rw [if_neg enough]
  simp only [zero, hexValue?_hexDigit highSmall, hexValue?_hexDigit lowSmall]
  exact ⟨_, rfl, by simp, rfl⟩

theorem reads_codeEscape {character : Char} (control : isControl character = true)
    (rest : List Char) :
    Reads strictEscape
      ('u' :: '0' :: '0' :: hexDigit (character.toNat / 16) :: hexDigit (character.toNat % 16) ::
        rest) character rest := by
  have small : character.toNat < 0x20 := by simpa [isControl] using control
  obtain ⟨unit, read, code, left⟩ :=
    @reads_codeUnit (character.toNat / 16) (character.toNat % 16) (by omega) (by omega) rest
  rw [Nat.mul_comm, Nat.div_add_mod] at code
  have noTrailing : isTrailingSurrogate unit.value = false := by
    simp only [isTrailingSurrogate, code, Bool.and_eq_false_iff, decide_eq_false_iff_not]
    omega
  have noLeading : isLeadingSurrogate unit.value = false := by
    simp only [isLeadingSurrogate, code, Bool.and_eq_false_iff, decide_eq_false_iff_not]
    omega
  unfold Reads strictEscape
  simp only [if_true, readUnicodeEscape, read, bind, Except.bind, noTrailing, noLeading]
  refine ⟨_, rfl, ?_, left⟩
  show Char.ofNat unit.value = character
  rw [code, Char.ofNat_toNat]

theorem reads_shortEscape {letter character : Char} (short : shortEscape? letter = some character)
    (rest : List Char) : Reads strictEscape (letter :: rest) character rest := by
  have noCode : letter ≠ 'u' := by
    rintro rfl
    contradiction
  unfold Reads strictEscape
  simp only [if_neg noCode, short]
  exact ⟨_, rfl, rfl, rfl⟩

/-- A character is read from its written form. -/
theorem reads_escapeCharacter (character : Char) {text value rest : List Char}
    (reads : Reads (readUpToQuote strictEscape) text value rest) :
    Reads (readUpToQuote strictEscape) (escapeCharacter character ++ text) (character :: value)
      rest := by
  unfold escapeCharacter
  split_ifs with quote backslash backspace formFeed lineFeed carriageReturn tab control
  · subst quote
    exact reads_escape (reads_shortEscape rfl text) reads
  · subst backslash
    exact reads_escape (reads_shortEscape rfl text) reads
  · subst backspace
    exact reads_escape (reads_shortEscape rfl text) reads
  · subst formFeed
    exact reads_escape (reads_shortEscape rfl text) reads
  · subst lineFeed
    exact reads_escape (reads_shortEscape rfl text) reads
  · subst carriageReturn
    exact reads_escape (reads_shortEscape rfl text) reads
  · subst tab
    exact reads_escape (reads_shortEscape rfl text) reads
  · exact reads_escape (reads_codeEscape control text) reads
  · exact reads_plainCharacter quote backslash (Bool.not_eq_true _ ▸ control) reads

theorem reads_quoteText (content : String) (rest : List Char) :
    Reads (readUpToQuote strictEscape) (content.toList.flatMap escapeCharacter ++ '"' :: rest)
      content.toList rest := by
  induction content.toList with
  | nil => exact reads_closingQuote rest
  | cons character later ih =>
    rw [List.flatMap_cons, List.append_assoc]
    exact reads_escapeCharacter character ih

/-! ## Written values -/

namespace JsonValue

/-- The reader takes the value off any text that goes on with the written form. -/
def ReadsAs {α : Type} (json : JsonValue) (item : JsonReader α) (value : α) : Prop :=
  ∀ depth text rest, skipSpaces text = json.write depth ++ rest → Reads item text value rest

/-- A written value opens with a mark of its own, which closes no list. -/
theorem write_head (json : JsonValue) (depth : Nat) :
    ∃ first later, json.write depth = first :: later ∧ isJsonSpace first = false ∧ first ≠ ']' := by
  cases json with
  | text content => exact ⟨_, _, by rw [write, quoteText], rfl, by decide⟩
  | flag content => cases content <;> exact ⟨_, _, by rw [write], rfl, by decide⟩
  | list elements => cases elements <;> exact ⟨_, _, by rw [write], rfl, by decide⟩
  | record fields => cases fields <;> exact ⟨_, _, by rw [write], rfl, by decide⟩

theorem skipSpaces_write (json : JsonValue) (depth : Nat) (rest : List Char) :
    skipSpaces (json.write depth ++ rest) = json.write depth ++ rest := by
  obtain ⟨first, later, written, solid, _⟩ := json.write_head depth
  rw [written, List.cons_append, skipSpaces_cons solid]

/-- Every text is read back. -/
theorem readsAs_text (content : String) : (text content).ReadsAs readText content := by
  intro depth text rest head
  rw [write, quoteText, List.cons_append, List.append_assoc, List.singleton_append] at head
  obtain ⟨reading, read, value, left⟩ := reads_quoteText content rest
  unfold Reads readText
  split
  · rename_i nothing
    simp [head] at nothing
  · rename_i first following split
    obtain ⟨rfl, rfl⟩ := List.cons.inj (split.symm.trans head)
    simp only [if_true, read, bind, Except.bind]
    exact ⟨_, rfl, by rw [value, String.ofList_toList], left⟩

end JsonValue

/-! ## Lists -/

section Lists

variable {α : Type} {item : JsonReader α} {text start following rest : List Char}

theorem nextElement_closed (isFirst : Bool) (head : skipSpaces text = ']' :: rest) :
    ∃ shorter, nextElement isFirst text = .ok (.closed rest shorter) := by
  unfold nextElement
  split
  · rename_i nothing
    simp [head] at nothing
  · rename_i mark following split
    obtain ⟨rfl, rfl⟩ := List.cons.inj (split.symm.trans head)
    exact ⟨length_lt_of_skipSpaces head, rfl⟩

theorem nextElement_first {first : Char} (head : skipSpaces text = first :: following)
    (unclosed : first ≠ ']') : nextElement true text = .ok (.element text (Nat.le_refl _)) := by
  unfold nextElement
  split
  · rename_i nothing
    simp [head] at nothing
  · rename_i mark following split
    obtain ⟨rfl, rfl⟩ := List.cons.inj (split.symm.trans head)
    simp only [if_neg unclosed, if_true]

theorem nextElement_later {first : Char} (head : skipSpaces text = ',' :: start)
    (next : skipSpaces start = first :: following) (unclosed : first ≠ ']') :
    ∃ notLonger, nextElement false text = .ok (.element start notLonger) := by
  unfold nextElement
  split
  · rename_i nothing
    simp [head] at nothing
  · rename_i mark following split
    obtain ⟨rfl, rfl⟩ := List.cons.inj (split.symm.trans head)
    simp only [next, if_neg unclosed]
    exact ⟨Nat.le_of_lt (length_lt_of_skipSpaces head), rfl⟩

theorem reads_noElement (isFirst : Bool) (head : skipSpaces text = ']' :: rest) :
    Reads (readElements item isFirst) text [] rest := by
  obtain ⟨shorter, next⟩ := nextElement_closed isFirst head
  unfold Reads
  rw [readElements, next]
  exact ⟨_, rfl, rfl, rfl⟩

/-- An element is read where one comes next, and the others behind it. -/
theorem reads_element {isFirst : Bool} {notLonger : start.length ≤ text.length} {value : α}
    {values : List α} (next : nextElement isFirst text = .ok (.element start notLonger))
    (reads : Reads item start value following)
    (readsLater : Reads (readElements item false) following values rest) :
    Reads (readElements item isFirst) text (value :: values) rest := by
  obtain ⟨element, read, rfl, rfl⟩ := reads
  obtain ⟨later, readLater, rfl, rfl⟩ := readsLater
  unfold Reads
  rw [readElements, next]
  simp only [bind, Except.bind, read, readLater]
  exact ⟨_, rfl, rfl, rfl⟩

theorem reads_list {values : List α} (head : skipSpaces text = '[' :: start)
    (reads : Reads (readElements item true) start values rest) :
    Reads (readList item) text values rest := by
  obtain ⟨elements, read, rfl, rfl⟩ := reads
  unfold Reads readList
  split
  · rename_i nothing
    simp [head] at nothing
  · rename_i first following split
    obtain ⟨rfl, rfl⟩ := List.cons.inj (split.symm.trans head)
    simp only [if_true, read, bind, Except.bind]
    exact ⟨_, rfl, rfl, rfl⟩

end Lists

namespace JsonValue

variable {α : Type} {item : JsonReader α} {toJson : α → JsonValue}

/-- Behind an element, the further elements are read up to the end of the list. -/
theorem reads_writeElements {values : List α}
    (each : ∀ value ∈ values, (toJson value).ReadsAs item value) (depth outer : Nat)
    (rest : List Char) :
    Reads (readElements item false)
      (writeElements depth (values.map toJson) ++ (newLine outer ++ ']' :: rest)) values rest := by
  induction values with
  | nil =>
    rw [List.map_nil, writeElements, List.nil_append]
    exact reads_noElement false (by rw [skipSpaces_newLine, skipSpaces_cons (by decide)])
  | cons value later ih =>
    have readsLater := ih fun other member => each other (List.mem_cons_of_mem _ member)
    obtain ⟨first, behind, written, _, unclosed⟩ := (toJson value).write_head depth
    simp only [List.map_cons, writeElements, List.cons_append, List.append_assoc]
    have start : skipSpaces (newLine depth ++ ((toJson value).write depth ++
        (writeElements depth (later.map toJson) ++ (newLine outer ++ ']' :: rest)))) =
        (toJson value).write depth ++
          (writeElements depth (later.map toJson) ++ (newLine outer ++ ']' :: rest)) := by
      rw [skipSpaces_newLine, skipSpaces_write]
    have comma : isJsonSpace ',' = false := rfl
    obtain ⟨notLonger, next⟩ :=
      nextElement_later (skipSpaces_cons comma _)
        (start.trans (by rw [written, List.cons_append])) unclosed
    exact reads_element next (each value List.mem_cons_self depth _ _ start) readsLater

/-- A list is read back if its elements are. -/
theorem readsAs_list {values : List α}
    (each : ∀ value ∈ values, (toJson value).ReadsAs item value) :
    (list (values.map toJson)).ReadsAs (readList item) values := by
  intro depth text rest head
  cases values with
  | nil => exact reads_list head (reads_noElement true (skipSpaces_cons (by decide) rest))
  | cons value later =>
    simp only [List.map_cons, write, List.cons_append, List.append_assoc, List.nil_append] at head
    have start := skipSpaces_write (toJson value) (depth + 1)
      (writeElements (depth + 1) (later.map toJson) ++ (newLine depth ++ ']' :: rest))
    rw [← skipSpaces_newLine (depth + 1)] at start
    obtain ⟨first, behind, written, _, unclosed⟩ := (toJson value).write_head (depth + 1)
    have next := nextElement_first (start.trans (by rw [written, List.cons_append])) unclosed
    have readsFirst := each value List.mem_cons_self (depth + 1) _ _ start
    have readsLater := reads_writeElements
      (fun other member => each other (List.mem_cons_of_mem _ member)) (depth + 1) depth rest
    exact reads_list head (reads_element next readsFirst readsLater)

theorem readsAs_texts (contents : List String) :
    (texts contents).ReadsAs (readList readText) contents :=
  readsAs_list fun content _ => readsAs_text content

end JsonValue

/-! ## Records -/

theorem reads_mark {mark : Char} {text rest : List Char} (head : skipSpaces text = mark :: rest) :
    Reads (passMark mark) text () rest := by
  unfold Reads passMark
  split
  · rename_i nothing
    simp [head] at nothing
  · rename_i first following split
    obtain ⟨rfl, rfl⟩ := List.cons.inj (split.symm.trans head)
    rw [if_pos rfl]
    exact ⟨_, rfl, rfl, rfl⟩

section Records

variable {ρ : Type} {text start rest : List Char}

theorem nextKey_closed (isFirst : Bool) (head : skipSpaces text = '\x7d' :: rest) :
    ∃ shorter, nextKey isFirst text = .ok (.closed rest shorter) := by
  unfold nextKey
  split
  · rename_i nothing
    simp [head] at nothing
  · rename_i mark following split
    obtain ⟨rfl, rfl⟩ := List.cons.inj (split.symm.trans head)
    exact ⟨length_lt_of_skipSpaces head, rfl⟩

theorem nextKey_first (head : skipSpaces text = '"' :: rest) :
    ∃ shorter, nextKey true text = .ok (.key rest shorter) := by
  unfold nextKey
  split
  · rename_i nothing
    simp [head] at nothing
  · rename_i mark following split
    obtain ⟨rfl, rfl⟩ := List.cons.inj (split.symm.trans head)
    exact ⟨length_lt_of_skipSpaces head, rfl⟩

theorem nextKey_later (head : skipSpaces text = ',' :: start)
    (next : skipSpaces start = '"' :: rest) :
    ∃ shorter, nextKey false text = .ok (.key rest shorter) := by
  unfold nextKey
  split
  · rename_i nothing
    simp [head] at nothing
  · rename_i mark following split
    obtain ⟨rfl, rfl⟩ := List.cons.inj (split.symm.trans head)
    rw [if_neg (by decide), if_neg Bool.false_ne_true, if_pos rfl]
    split
    · rename_i nothing
      simp [next] at nothing
    · rename_i quote beyond split'
      obtain ⟨rfl, rfl⟩ := List.cons.inj (split'.symm.trans next)
      exact ⟨Nat.lt_trans (length_lt_of_skipSpaces next) (length_lt_of_skipSpaces head), rfl⟩

variable {fields : List (RecordField ρ)} {record final : ρ} {seen : List String} {isFirst : Bool}

theorem reads_noMember (complete : ∀ field ∈ fields, field.required = true → field.name ∈ seen)
    (head : skipSpaces text = '\x7d' :: rest) :
    Reads (readMembers fields record seen isFirst) text record rest := by
  obtain ⟨shorter, next⟩ := nextKey_closed isFirst head
  have noneMissing :
      (fields.any fun field => field.required && !seen.contains field.name) = false := by
    simpa using complete
  unfold Reads
  rw [readMembers, next]
  simp only [bind, Except.bind, noneMissing]
  exact ⟨_, rfl, rfl, rfl⟩

/-- A member is read where its key comes next, and the others behind it. -/
theorem reads_member {name : String} {field : RecordField ρ} {change : ρ → ρ}
    {behindName behindColon behindValue : List Char} {shorter : start.length < text.length}
    (next : nextKey isFirst text = .ok (.key start shorter))
    (readsName : Reads (readUpToQuote strictEscape) start name.toList behindName)
    (find : fields.find? (·.name = name) = some field) (fresh : name ∉ seen)
    (colon : skipSpaces behindName = ':' :: behindColon)
    (reads : Reads field.read behindColon change behindValue)
    (readsLater : Reads (readMembers fields (change record) (name :: seen) false) behindValue final
      rest) :
    Reads (readMembers fields record seen isFirst) text final rest := by
  obtain ⟨key, readName, spelled, rfl⟩ := readsName
  obtain ⟨mark, readColon, _, rfl⟩ := reads_mark colon
  obtain ⟨value, read, rfl, rfl⟩ := reads
  obtain ⟨later, readLater, rfl, rfl⟩ := readsLater
  have unseen : seen.contains name = false := by simpa using fresh
  unfold Reads
  rw [readMembers, next]
  simp only [bind, Except.bind, readName, spelled, String.ofList_toList, find, unseen, readColon,
    read, readLater]
  exact ⟨_, rfl, rfl, rfl⟩

theorem reads_record {shape : RecordShape ρ} (head : skipSpaces text = '\x7b' :: start)
    (reads : Reads (readMembers shape.fields shape.default [] true) start final rest) :
    Reads (readRecord shape) text final rest := by
  obtain ⟨members, read, rfl, rfl⟩ := reads
  unfold Reads readRecord
  split
  · rename_i nothing
    simp [head] at nothing
  · rename_i first following split
    obtain ⟨rfl, rfl⟩ := List.cons.inj (split.symm.trans head)
    simp only [if_neg (show ('\x7b' : Char) ≠ '[' by decide), if_true, read, bind, Except.bind]
    exact ⟨_, rfl, rfl, rfl⟩

/-- Members that lead from a record to another one.  Every member belongs to a field that has not
come before and is read as the change its value makes, and at the end no required field is
missing. -/
inductive FieldsReadAs (fields : List (RecordField ρ)) :
    ρ → List String → List (String × JsonValue) → ρ → Prop where
  | done {record : ρ} {seen : List String}
      (complete : ∀ field ∈ fields, field.required = true → field.name ∈ seen) :
      FieldsReadAs fields record seen [] record
  | member {record final : ρ} {seen : List String} {name : String} {json : JsonValue}
      {later : List (String × JsonValue)} {field : RecordField ρ} {change : ρ → ρ}
      (find : fields.find? (·.name = name) = some field) (fresh : name ∉ seen)
      (reads : json.ReadsAs field.read change) :
      FieldsReadAs fields (change record) (name :: seen) later final →
        FieldsReadAs fields record seen ((name, json) :: later) final

/-- The change of an optional field is to set it to what is read. -/
theorem readsAs_optional {α : Type} {item : JsonReader α} {json : JsonValue} {value : α}
    (reads : json.ReadsAs item value) (name : String) (set : ρ → α → ρ) :
    json.ReadsAs (RecordField.optional name item set).read fun record => set record value := by
  intro depth text rest head
  obtain ⟨reading, read, rfl, rfl⟩ := reads depth text rest head
  unfold Reads
  simp only [RecordField.optional, read, bind, Except.bind]
  exact ⟨_, rfl, rfl, rfl⟩

theorem readsAs_mandatory {α : Type} {item : JsonReader α} {json : JsonValue} {value : α}
    (reads : json.ReadsAs item value) (name : String) (set : ρ → α → ρ) :
    json.ReadsAs (RecordField.mandatory name item set).read fun record => set record value :=
  readsAs_optional reads name set

end Records

namespace JsonValue

variable {ρ : Type} {fields : List (RecordField ρ)} {record final : ρ} {seen : List String}

/-- The characters of a member behind the quote that opens its name. -/
def writtenMember (name : String) (json : JsonValue) (depth : Nat) (behind : List Char) :
    List Char :=
  name.toList.flatMap escapeCharacter ++ '"' :: ':' :: ' ' :: (json.write depth ++ behind)

theorem quoteText_append_write (name : String) (json : JsonValue) (depth : Nat)
    (behind : List Char) :
    quoteText name ++ (':' :: ' ' :: (json.write depth ++ behind)) =
      '"' :: writtenMember name json depth behind := by
  simp [quoteText, writtenMember]

/-- A written member is read where its key comes next, and the others behind it. -/
theorem reads_writtenMember {isFirst : Bool} {text behind rest : List Char} {name : String}
    {json : JsonValue} {field : RecordField ρ} {change : ρ → ρ} {depth : Nat}
    {shorter : (writtenMember name json depth behind).length < text.length}
    (next : nextKey isFirst text = .ok (.key (writtenMember name json depth behind) shorter))
    (find : fields.find? (·.name = name) = some field) (fresh : name ∉ seen)
    (reads : json.ReadsAs field.read change)
    (readsLater : Reads (readMembers fields (change record) (name :: seen) false) behind final
      rest) :
    Reads (readMembers fields record seen isFirst) text final rest := by
  have colon : skipSpaces (':' :: ' ' :: (json.write depth ++ behind)) =
      ':' :: ' ' :: (json.write depth ++ behind) := skipSpaces_cons rfl _
  have value : skipSpaces (' ' :: (json.write depth ++ behind)) = json.write depth ++ behind :=
    (skipSpaces_write json depth behind).symm ▸ rfl
  exact reads_member next (reads_quoteText name _) find fresh colon
    (reads depth _ _ value) readsLater

/-- Behind a member, the further members are read up to the end of the record. -/
theorem reads_writeFields {members : List (String × JsonValue)}
    (readAs : FieldsReadAs fields record seen members final) (depth outer : Nat)
    (rest : List Char) :
    Reads (readMembers fields record seen false)
      (writeFields depth members ++ (newLine outer ++ '\x7d' :: rest)) final rest := by
  induction readAs with
  | done complete =>
    rw [writeFields, List.nil_append]
    exact reads_noMember complete (by rw [skipSpaces_newLine, skipSpaces_cons (by decide)])
  | @member record final seen name json later field change find fresh reads _ ih =>
    simp only [writeFields, List.cons_append, List.append_assoc, List.nil_append]
    rw [quoteText_append_write]
    have start := skipSpaces_newLine depth ('"' :: writtenMember name json depth
      (writeFields depth later ++ (newLine outer ++ '\x7d' :: rest)))
    rw [skipSpaces_cons (by decide)] at start
    have comma : isJsonSpace ',' = false := rfl
    obtain ⟨shorter, next⟩ := nextKey_later (skipSpaces_cons comma _) start
    exact reads_writtenMember next find fresh reads ih

/-- A record is read back if its members lead from the default to it. -/
theorem readsAs_record {shape : RecordShape ρ} {members : List (String × JsonValue)}
    (readAs : FieldsReadAs shape.fields shape.default [] members final) :
    (JsonValue.record members).ReadsAs (readRecord shape) final := by
  intro depth text rest head
  cases readAs with
  | done complete =>
    exact reads_record head (reads_noMember complete (skipSpaces_cons (by decide) rest))
  | @member _ _ _ name json later field change find fresh reads others =>
    simp only [write, List.cons_append, List.append_assoc, List.nil_append] at head
    rw [quoteText_append_write] at head
    have start := skipSpaces_newLine (depth + 1) ('"' :: writtenMember name json (depth + 1)
      (writeFields (depth + 1) later ++ (newLine depth ++ '\x7d' :: rest)))
    rw [skipSpaces_cons (by decide)] at start
    obtain ⟨shorter, next⟩ := nextKey_first start
    exact reads_record head (reads_writtenMember next find fresh reads
      (reads_writeFields others (depth + 1) depth rest))

/-- The value is read back from the rendered text. -/
theorem ReadsAs.readWholeText_render {α : Type} {json : JsonValue} {item : JsonReader α} {value : α}
    (reads : json.ReadsAs item value) : readWholeText item json.render = .ok value := by
  obtain ⟨reading, read, rfl, left⟩ :=
    reads 0 json.render.toList [] (by
      rw [render, String.toList_ofList, List.append_nil]
      simpa using skipSpaces_write json 0 [])
  unfold readWholeText
  simp only [bind, Except.bind, read, left]
  rfl

end JsonValue

end ApiReference
