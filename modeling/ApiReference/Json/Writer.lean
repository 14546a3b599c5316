import ApiReference.Json.Quoted

/-!
# Writing JSON text

Values are written over several lines: every element of a list and every field of a record has a
line of its own, two spaces further in than the brackets around it.  Lists and records without
content are written on one line.
-/

namespace ApiReference

set_option autoImplicit false

/-- The values that are written. -/
inductive JsonValue where
  | text (content : String)
  | flag (content : Bool)
  | list (elements : List JsonValue)
  | record (fields : List (String × JsonValue))
deriving Repr, Inhabited

namespace JsonValue

/-- The list of some texts. -/
def texts (contents : List String) : JsonValue :=
  list (contents.map text)

/-- A new line, at a depth of two spaces each. -/
def newLine (depth : Nat) : List Char :=
  '\n' :: List.replicate (2 * depth) ' '

mutual

/-- Write a value at a depth. -/
def write (depth : Nat) : JsonValue → List Char
  | text content => quoteText content
  | flag true => ['t', 'r', 'u', 'e']
  | flag false => ['f', 'a', 'l', 's', 'e']
  | list [] => ['[', ']']
  | list (first :: later) =>
    '[' :: (newLine (depth + 1) ++ write (depth + 1) first ++ writeElements (depth + 1) later ++
      newLine depth ++ [']'])
  | record [] => ['\x7b', '\x7d']
  | record ((name, value) :: later) =>
    '\x7b' :: (newLine (depth + 1) ++ quoteText name ++ [':', ' '] ++ write (depth + 1) value ++
      writeFields (depth + 1) later ++ newLine depth ++ ['\x7d'])

/-- Write the further elements of a list. -/
def writeElements (depth : Nat) : List JsonValue → List Char
  | [] => []
  | value :: later => ',' :: (newLine depth ++ write depth value ++ writeElements depth later)

/-- Write the further fields of a record. -/
def writeFields (depth : Nat) : List (String × JsonValue) → List Char
  | [] => []
  | (name, value) :: later =>
    ',' :: (newLine depth ++ quoteText name ++ [':', ' '] ++ write depth value ++
      writeFields depth later)

end

/-- The text of a value. -/
def render (value : JsonValue) : String :=
  String.ofList (value.write 0)

end JsonValue

end ApiReference
