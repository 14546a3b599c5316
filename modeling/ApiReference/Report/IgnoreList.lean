import ApiReference.Json.Record
import ApiReference.Json.Writer
import ApiReference.Text.NameList

/-!
# Ignore lists

The names that the report on missing descriptions leaves out.  Names may be qualified with colons;
both in the list and in the report only what follows the last colon counts.
-/

namespace ApiReference

set_option autoImplicit false

/-- What follows the last colon of a name. -/
def unqualified (name : String) : String :=
  String.ofList (name.toList.reverse.takeWhile (· ≠ ':')).reverse

/-- Unqualified names in increasing order, each once. -/
structure IgnoreList where
  names : List String
deriving DecidableEq, Repr, Inhabited

namespace IgnoreList

/-- The list without names. -/
def empty : IgnoreList := ⟨[]⟩

/-- Add a name. -/
def insert (list : IgnoreList) (name : String) : IgnoreList :=
  ⟨insertName (unqualified name) list.names⟩

/-- The list of some names. -/
def ofNames (names : List String) : IgnoreList :=
  names.foldl insert empty

/-- The name is left out of the report. -/
def contains (list : IgnoreList) (name : String) : Bool :=
  list.names.contains (unqualified name)

/-- How many names the list holds. -/
def size (list : IgnoreList) : Nat :=
  list.names.length

/-- Read an ignore list, which is a list of names. -/
def ofText (text : String) : Except JsonFailure IgnoreList := do
  let names ← readWholeText (readList readText) text
  .ok (ofNames names)

/-- An ignore list as it is written. -/
def toJson (list : IgnoreList) : JsonValue :=
  .texts list.names

end IgnoreList

end ApiReference
