import ApiReference.Json.Reader

/-!
# Quoted text in JSON

Inside quotes a backslash opens an escape and no control character may stand as such.  Characters
beyond the basic plane may be escaped as a pair of surrogates; one that stands alone is refused in
text that is read.  In text that is only skipped it passes (`looseEscape`).

`quoteText` is the writing side.  It escapes the quote, the backslash and the control characters,
and nothing else.
-/

namespace ApiReference

set_option autoImplicit false

/-! ## Escapes -/

/-- The value of a hexadecimal digit. -/
def hexValue? (digit : Char) : Option Nat :=
  if '0' ≤ digit ∧ digit ≤ '9' then some (digit.toNat - '0'.toNat)
  else if 'a' ≤ digit ∧ digit ≤ 'f' then some (digit.toNat - 'a'.toNat + 10)
  else if 'A' ≤ digit ∧ digit ≤ 'F' then some (digit.toNat - 'A'.toNat + 10)
  else none

/-- The bytes that the UTF-8 form of a text takes. -/
def utf8Length (text : List Char) : Nat :=
  text.foldr (fun character bytes => character.utf8Size + bytes) 0

/-- Read four hexadecimal digits.  The text counts as ended if fewer than four bytes of its UTF-8
form are left. -/
def readCodeUnit : JsonReader Nat := fun text =>
  if utf8Length (text.take 4) < 4 then .error .endOfText
  else
    match text with
    | first :: second :: third :: fourth :: rest =>
      match hexValue? first, hexValue? second, hexValue? third, hexValue? fourth with
      | some a, some b, some c, some d =>
        .ok ⟨((a * 16 + b) * 16 + c) * 16 + d, rest, by simp only [List.length_cons]; omega⟩
      | _, _, _, _ => .error .malformed
    | _ => .error .malformed

/-- The code unit is the first of a pair. -/
def isLeadingSurrogate (unit : Nat) : Bool :=
  0xD800 ≤ unit && unit ≤ 0xDBFF

/-- The code unit is the second of a pair. -/
def isTrailingSurrogate (unit : Nat) : Bool :=
  0xDC00 ≤ unit && unit ≤ 0xDFFF

/-- The character of a pair of surrogates. -/
def joinSurrogates (leading trailing : Nat) : Char :=
  Char.ofNat ((leading - 0xD800) * 0x400 + (trailing - 0xDC00) + 0x10000)

/-- The character that an escape of one letter stands for. -/
def shortEscape? : Char → Option Char
  | '"' => some '"'
  | '\\' => some '\\'
  | '/' => some '/'
  | 'b' => some '\x08'
  | 'f' => some '\x0c'
  | 'n' => some '\n'
  | 'r' => some '\r'
  | 't' => some '\t'
  | _ => none

/-- Read the second half of a pair of surrogates, with its `\u`. -/
def readTrailingSurrogate (leading : Nat) : JsonReader Char := fun text =>
  match text with
  | [] => .error .endOfText
  | ['\\'] => .error .endOfText
  | '\\' :: 'u' :: digits => do
    let unit ← readCodeUnit digits
    if isTrailingSurrogate unit.value then
      .ok ((unit.withValue (joinSurrogates leading unit.value)).ofLe (by
        simp only [List.length_cons]
        omega))
    else .error .malformed
  | _ => .error .malformed

/-- Read the character that the digits behind `\u` stand for. -/
def readUnicodeEscape : JsonReader Char := fun text => do
  let unit ← readCodeUnit text
  if isTrailingSurrogate unit.value then .error .malformed
  else if isLeadingSurrogate unit.value then
    let pair ← readTrailingSurrogate unit.value unit.rest
    .ok (pair.ofLe (Nat.le_of_lt unit.shorter))
  else .ok (unit.withValue (Char.ofNat unit.value))

/-- Read an escape whose code unit must make a character. -/
def strictEscape : JsonReader Char := fun text =>
  match text with
  | [] => .error .endOfText
  | letter :: rest =>
    if letter = 'u' then do
      let character ← readUnicodeEscape rest
      .ok (character.ofLe (length_le_cons letter rest))
    else
      match shortEscape? letter with
      | some character => .ok ⟨character, rest, Nat.lt_succ_self _⟩
      | none => .error .malformed

/-- Read an escape of which only the form matters; a code unit may be any. -/
def looseEscape : JsonReader Char := fun text =>
  match text with
  | [] => .error .endOfText
  | letter :: rest =>
    if letter = 'u' then do
      let unit ← readCodeUnit rest
      .ok ((unit.withValue (Char.ofNat unit.value)).ofLe (length_le_cons letter rest))
    else
      match shortEscape? letter with
      | some character => .ok ⟨character, rest, Nat.lt_succ_self _⟩
      | none => .error .malformed

/-! ## Reading -/

/-- The control characters, which must be escaped. -/
def isControl (character : Char) : Bool :=
  character.toNat < 0x20

/-- Read up to the closing quote, and pass it. -/
def readUpToQuote (escape : JsonReader Char) (text : List Char) :
    Except JsonFailure (Reading (List Char) text) :=
  match text with
  | [] => .error .endOfText
  | first :: following =>
    if first = '"' then .ok ⟨[], following, Nat.lt_succ_self _⟩
    else if first = '\\' then do
      let escaped ← escape following
      let tail ← readUpToQuote escape escaped.rest
      .ok ((tail.withValue (escaped.value :: tail.value)).ofLe
        (Nat.le_succ_of_le (Nat.le_of_lt escaped.shorter)))
    else if isControl first then .error .malformed
    else do
      let tail ← readUpToQuote escape following
      .ok ((tail.withValue (first :: tail.value)).ofLe (length_le_cons first following))
termination_by text.length
decreasing_by
  · exact Nat.lt_succ_of_lt escaped.shorter
  · exact Nat.lt_succ_self _

/-! ## Writing -/

/-- A hexadecimal digit in lower case. -/
def hexDigit (value : Nat) : Char :=
  if value < 10 then Char.ofNat ('0'.toNat + value) else Char.ofNat ('a'.toNat + (value - 10))

/-- A character as it is written between quotes. -/
def escapeCharacter (character : Char) : List Char :=
  if character = '"' then ['\\', '"']
  else if character = '\\' then ['\\', '\\']
  else if character = '\x08' then ['\\', 'b']
  else if character = '\x0c' then ['\\', 'f']
  else if character = '\n' then ['\\', 'n']
  else if character = '\r' then ['\\', 'r']
  else if character = '\t' then ['\\', 't']
  else if isControl character then
    ['\\', 'u', '0', '0', hexDigit (character.toNat / 16), hexDigit (character.toNat % 16)]
  else [character]

/-- A text with quotes around it. -/
def quoteText (text : String) : List Char :=
  '"' :: (text.toList.flatMap escapeCharacter ++ ['"'])

end ApiReference
