/-!
# Reading JSON text

A reader takes a value off the head of a text and returns it with what is left, which is always
less than there was; that is what the loops over lists and records end by.  Reading goes once from
left to right and the first failure counts.  There are three of them: the text may end too early, it
may not be JSON, or it may be JSON of another shape than the reader asks for.
-/

namespace ApiReference

set_option autoImplicit false

/-- Why a text cannot be read. -/
inductive JsonFailure where
  /-- The text ends where more is needed. -/
  | endOfText
  /-- The text is not JSON. -/
  | malformed
  /-- The text is JSON, but not of the shape that is asked for. -/
  | wrongShape
deriving DecidableEq, Repr, Inhabited

/-- The failure in words. -/
def JsonFailure.message : JsonFailure → String
  | endOfText => "the text ends too early"
  | malformed => "the text is not JSON"
  | wrongShape => "the JSON value has another shape"

/-- A value read off the head of a text, with the rest of the text. -/
structure Reading (α : Type) (text : List Char) where
  value : α
  rest : List Char
  shorter : rest.length < text.length

namespace Reading

variable {α β : Type} {text smaller : List Char}

/-- The same reading, as one of a text that is at least as long. -/
def ofLe (reading : Reading α smaller) (le : smaller.length ≤ text.length) : Reading α text :=
  ⟨reading.value, reading.rest, Nat.lt_of_lt_of_le reading.shorter le⟩

/-- The same reading with another value. -/
def withValue (reading : Reading α text) (value : β) : Reading β text :=
  ⟨value, reading.rest, reading.shorter⟩

end Reading

/-- Takes a value off the head of a text. -/
abbrev JsonReader (α : Type) := (text : List Char) → Except JsonFailure (Reading α text)

/-! ## White space -/

/-- The four characters that may stand between the parts of a JSON text. -/
def isJsonSpace (character : Char) : Bool :=
  character = ' ' || character = '\t' || character = '\n' || character = '\r'

/-- The text from its next part on. -/
def skipSpaces (text : List Char) : List Char :=
  text.dropWhile isJsonSpace

theorem skipSpaces_length (text : List Char) : (skipSpaces text).length ≤ text.length :=
  (List.dropWhile_sublist isJsonSpace).length_le

/-- What follows the next part's first character is less than there was. -/
theorem length_lt_of_skipSpaces {text rest : List Char} {first : Char}
    (head : skipSpaces text = first :: rest) : rest.length < text.length := by
  have := skipSpaces_length text
  rw [head, List.length_cons] at this
  omega

theorem length_le_cons (first : Char) (rest : List Char) :
    rest.length ≤ (first :: rest).length :=
  Nat.le_succ rest.length

theorem length_le_self (text : List Char) : text.length ≤ text.length :=
  Nat.le_refl text.length

/-! ## Fixed parts -/

/-- Pass over a mark, after spaces. -/
def passMark (mark : Char) : JsonReader Unit := fun text =>
  match head : skipSpaces text with
  | [] => .error .endOfText
  | first :: rest =>
    if first = mark then .ok ⟨(), rest, length_lt_of_skipSpaces head⟩ else .error .malformed

/-- Why the text does not go on with the given letters, or what stands behind them. -/
def passLetters : List Char → List Char → Except JsonFailure (List Char)
  | [], text => .ok text
  | _ :: _, [] => .error .endOfText
  | letter :: letters, first :: rest =>
    if first = letter then passLetters letters rest else .error .malformed

theorem passLetters_length {letters text rest : List Char}
    (passed : passLetters letters text = .ok rest) : rest.length ≤ text.length := by
  induction letters generalizing text with
  | nil =>
    simp only [passLetters, Except.ok.injEq] at passed
    exact passed ▸ Nat.le_refl _
  | cons letter letters ih =>
    cases text with
    | nil => simp [passLetters] at passed
    | cons first text =>
      rw [passLetters] at passed
      split at passed
      · exact Nat.le_succ_of_le (ih passed)
      · simp at passed

/-- The letters that follow the first one of `null`, `true` and `false`. -/
def lettersAfter? : Char → Option (List Char)
  | 'n' => some ['u', 'l', 'l']
  | 't' => some ['r', 'u', 'e']
  | 'f' => some ['a', 'l', 's', 'e']
  | _ => none

end ApiReference
