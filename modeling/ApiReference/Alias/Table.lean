import ApiReference.Alias.Basic
import ApiReference.Diagnostic.Finding
import ApiReference.Store.IndexedList

/-!
# Alias tables

A table holds aliases in an order, at most one for each key, with an index from keys to positions.
The first alias with a key stays and later ones are refused, which `insertAll` reports.  A table is
sorted with its index made anew, and an alias is redefined in place.  The type says no more than
that a table comes about in these ways.

A name used inside a scope resolves to the first of its lookup keys that is in the table, from the
bare name outwards in, so an alias of the outermost scope hides one of the same name further inside.
-/

namespace ApiReference

set_option autoImplicit false

/-- Aliases in an order, found by their keys. -/
structure AliasTable where
  store : IndexedList Alias.key
  made : store.Made
deriving DecidableEq, Repr

namespace AliasTable

/-- The table with no alias. -/
def empty : AliasTable := ⟨.empty, IndexedList.made_empty⟩

instance : Inhabited AliasTable := ⟨empty⟩

/-- The aliases of a table, in its order. -/
def entries (table : AliasTable) : List Alias :=
  table.store.items

/-- The keys of a table, in its order. -/
def keys (table : AliasTable) : List String :=
  table.entries.map Alias.key

/-- How many aliases the table holds. -/
def size (table : AliasTable) : Nat :=
  table.entries.length

/-- The alias with a key. -/
def find? (table : AliasTable) (key : String) : Option Alias :=
  table.store.find? key

/-- Some alias has the key. -/
def contains (table : AliasTable) (key : String) : Bool :=
  table.store.contains key

/-- The alias that a name means inside a scope. -/
def resolve? (table : AliasTable) (name : String) (scope : Scope) : Option Alias :=
  (scope.lookupKeys name).findSome? table.find?

/-! ## Insertion -/

/-- Add an alias at the end, unless its key is taken. -/
def insert (table : AliasTable) (entry : Alias) : AliasTable :=
  ⟨table.store.insert entry, table.made.insert entry⟩

/-- Why an alias is refused, if it is. -/
def refusal? (table : AliasTable) (entry : Alias) : Option Finding :=
  (table.find? entry.key).map fun kept =>
    .duplicateAlias entry.key (Token.joinedText kept.definition)
      (Token.joinedText entry.definition)

/-- Add aliases one after the other, and report those that are refused. -/
def insertAll (table : AliasTable) (offered : List Alias) : AliasTable × List Finding :=
  match offered with
  | [] => (table, [])
  | entry :: later =>
    let (filled, findings) := (table.insert entry).insertAll later
    (filled, (table.refusal? entry).toList ++ findings)

/-! ## Order and redefinition -/

/-- Aliases are ordered by name, and by key where the names are equal. -/
def precedes (left right : Alias) : Bool :=
  left.name < right.name || (left.name = right.name && left.key ≤ right.key)

/-- The same aliases in the order of their names. -/
def sort (table : AliasTable) : AliasTable :=
  ⟨table.store.sort precedes, table.made.sort precedes⟩

/-- Give the alias with a key another definition. -/
def redefine (table : AliasTable) (key : String) (definition : List Token) : AliasTable :=
  ⟨table.store.modify key (·.redefine definition),
    table.made.modify (fun entry => entry.key_redefine definition) key⟩

end AliasTable

end ApiReference
