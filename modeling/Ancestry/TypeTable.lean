import Std.Data.ExtTreeMap
import Ancestry.TypeName
import Ancestry.Value.Members

/-!
# Tables of types

A table gives some types a set of types: their direct supertypes as a scan declared them, or all
their ancestors as an index of the core system lists them.  A type whose set is empty is in the
table all the same, which is not the same as a type that the table does not have.
-/

namespace Ancestry

/-- A table from types to sets of types. -/
structure TypeTable where
  entries : Std.ExtTreeMap TypeName TypeSet compare

namespace TypeTable

/-- The table that has no type. -/
def empty : TypeTable := ⟨∅⟩

/-- The set that the table gives a type, if the table has the type. -/
def get? (table : TypeTable) (t : TypeName) : Option TypeSet := table.entries[t]?

/-- The set that the table gives a type; empty for a type that the table does not have. -/
def getD (table : TypeTable) (t : TypeName) : TypeSet := (table.get? t).getD ∅

/-- The number of types in the table. -/
def size (table : TypeTable) : Nat := table.entries.size

/-- Whether the table has no type at all. -/
def isEmpty (table : TypeTable) : Bool := table.entries.isEmpty

/-- The types of the table, in ascending order. -/
def names (table : TypeTable) : List TypeName := table.entries.keys

/-- The number of places in the table at which a name stands. -/
def extent (table : TypeTable) : Nat :=
  table.entries.toList.foldl (fun n e => n + 1 + e.2.size) 0

/-- The name that a value gives where a type name is demanded: a plain text that is not empty.
`field` is what the name is to be called when it is refused. -/
def nameOfValue (field : String) (v : Value) : Except Fault TypeName :=
  match v with
  | .text s => if s.isEmpty then .error (.rule ("empty " ++ field) []) else .ok s
  | v => .error (.rule ("invalid " ++ field) [(field, v)])

/-- The type of an entry and its set. -/
def entryOfValue (field : String) (e : Value × Value) : Except Fault (TypeName × TypeSet) := do
  let name ← nameOfValue "type_id" e.1
  let members ← e.2.members
  let names ← members.mapM (nameOfValue field)
  return (name, TypeSet.ofNames names)

/-- The table with the given entries, of which a later one replaces an earlier one. -/
def ofEntries (entries : List (TypeName × TypeSet)) : TypeTable :=
  ⟨entries.foldl (fun table e => table.insert e.1 e.2) ∅⟩

/-- The table that a value describes: a map from names to collections of names.  The first thing
wrong, in the order of the entries and of their members, is the fault. -/
def ofValue (field : String) (v : Value) : Except Fault TypeTable := do
  return ofEntries (← (← v.entries).mapM (entryOfValue field))

/-- The name under which a value is looked up, if it can be the name of a type at all. -/
def keyOfValue (v : Value) : Except Fault (Option TypeName) :=
  match v.unfitKey? with
  | some w => .error (.notKey w)
  | none => .ok v.text?

/-- The set that the table gives a value. -/
def lookup (table : TypeTable) (v : Value) : Except Fault (Option TypeSet) := do
  return (← keyOfValue v).bind table.get?

end TypeTable
end Ancestry
