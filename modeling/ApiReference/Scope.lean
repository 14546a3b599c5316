/-!
# Scopes

A scope is the path of names around a declaration, outermost first.  A name that is used inside a
scope may mean a declaration of the scope itself or of one around it; `lookupKeys` lists the keys it
may have, from the bare name to the name qualified with the whole path.  Keys are plain
concatenations, without a separator.
-/

namespace ApiReference

set_option autoImplicit false

/-- The names around a declaration, outermost first. -/
structure Scope where
  names : List String
deriving DecidableEq, Repr, Inhabited

namespace Scope

/-- The scope of declarations that stand in no other. -/
def outermost : Scope := ⟨[]⟩

/-- The scope of one more name inside this one. -/
def enter (scope : Scope) (name : String) : Scope :=
  ⟨scope.names ++ [name]⟩

/-- The key of a name that is declared directly in the scope. -/
def qualify (scope : Scope) (name : String) : String :=
  String.join scope.names ++ name

/-- The keys a name may have when it is used inside the scope, the least qualified first. -/
def lookupKeys (scope : Scope) (name : String) : List String :=
  (List.range (scope.names.length + 1)).map fun depth =>
    qualify ⟨scope.names.take depth⟩ name

/-- The scope written with `::` between its names. -/
def displayText (scope : Scope) : String :=
  "::".intercalate scope.names

/-- The pieces of a text between the places where `::` stands. -/
def splitAtColons : List Char → List (List Char)
  | [] => [[]]
  | ':' :: ':' :: following => [] :: splitAtColons following
  | character :: following =>
    match splitAtColons following with
    | [] => [[character]]
    | piece :: pieces => (character :: piece) :: pieces

/-- Read a scope written with `::`; empty names are left out. -/
def ofText (text : String) : Scope :=
  ⟨((splitAtColons text.toList).filter (!·.isEmpty)).map String.ofList⟩

@[simp]
theorem qualify_outermost (name : String) : outermost.qualify name = name := by
  simp [outermost, qualify, String.join]

end Scope

end ApiReference
