import Ancestry.Value.Basic

/-!
# Tables under construction

A configuration file builds a table statement by statement, and what a statement may still change
depends on how the parts that it passes through came about.  A value that was given as a whole, an
inline table or an array among them, never changes.  A table under a header of its own, or one that
keys with dots have made in an earlier part of the file, cannot be opened again, but tables may be
added inside it.  An array of tables grows by headers only, and names that pass through it mean its
last table.

A *part* of a file is what stands under one header; what stands in front of the first header is
part zero.
-/

namespace Ancestry.Toml

/-- The name of an entry, and the names of the tables on the way to it. -/
structure Key where
  path : List String
  name : String
  deriving DecidableEq, Repr

/-- How a table came about. -/
inductive Origin
  /-- A header named a table inside it. -/
  | passed
  /-- Keys with dots named entries inside it, in the given part of the file. -/
  | dotted (part : Nat)
  /-- It has a header of its own. -/
  | declared
  deriving DecidableEq, Repr

/-- Whether a table of this origin cannot be opened again in the given part. -/
def Origin.isClosed : Origin → Nat → Bool
  | .passed, _ => false
  | .dotted made, part => made != part
  | .declared, _ => true

/-- What stands under a name. -/
inductive Node
  /-- A value that was given as a whole. -/
  | value (v : Value)
  | table (origin : Origin) (entries : List (String × Node))
  /-- An array of tables, which is never empty: all but the last, in reverse order, and the last. -/
  | tables (earlier : List (List (String × Node))) (last : List (String × Node))
  deriving Inhabited

/-- The entries of a table, in the order in which their names first came. -/
abbrev Entries := List (String × Node)

/-- Entries in which `change` has been made to what stands under a name: in its place if something
stands there, and at the end otherwise. -/
def alter (entries : Entries) (name : String) (change : Option Node → Option Node) :
    Option Entries :=
  match entries with
  | [] => (change none).map fun node => [(name, node)]
  | (n, node) :: rest =>
    if n = name then (change (some node)).map fun node => (n, node) :: rest
    else (alter rest name change).map ((n, node) :: ·)

/-- Entries in which `change` has been made to the table at the end of a path, on which tables
come about that are not there. -/
def within (path : List String) (change : Entries → Option Entries) (entries : Entries) :
    Option Entries :=
  match path with
  | [] => change entries
  | name :: path =>
    alter entries name fun
      | none => (within path change []).map (.table .passed)
      | some (.table origin inner) => (within path change inner).map (.table origin)
      | some (.tables earlier last) => (within path change last).map (.tables earlier)
      | some (.value _) => none

/-- Entries with a table under a header of its own. -/
def declare (part : Nat) (key : Key) (entries : Entries) : Option Entries :=
  within key.path (fun inner => alter inner key.name fun
    | none => some (.table .declared [])
    | some (.table origin entries) =>
      if origin.isClosed part then none else some (.table .declared entries)
    | some _ => none) entries

/-- Entries with one more table in an array of tables. -/
def append (key : Key) (entries : Entries) : Option Entries :=
  within key.path (fun inner => alter inner key.name fun
    | none => some (.tables [] [])
    | some (.tables earlier last) => some (.tables (last :: earlier) [])
    | some _ => none) entries

/-- Entries with a value under a key of the given part.  The tables on the way to it count as made
by keys with dots from then on. -/
def assign (part : Nat) (path : List String) (name : String) (v : Value) (entries : Entries) :
    Option Entries :=
  match path with
  | [] => alter entries name fun
    | none => some (.value v)
    | some _ => none
  | first :: path =>
    alter entries first fun
      | none => (assign part path name v []).map (.table (.dotted part))
      | some (.table origin inner) =>
        if origin.isClosed part then none
        else (assign part path name v inner).map (.table (.dotted part))
      | some _ => none

mutual
/-- The value that a part of a table has become. -/
def Node.toValue : Node → Value
  | .value v => v
  | .table _ entries => .map (valuesOf entries)
  | .tables earlier last => .list (tablesOf earlier [.map (valuesOf last)])
/-- The entries that entries under construction have become. -/
def valuesOf : List (String × Node) → List (Value × Value)
  | [] => []
  | (name, node) :: rest => (.text name, node.toValue) :: valuesOf rest
/-- The tables that tables under construction in reverse order have become, in front of others. -/
def tablesOf : List (List (String × Node)) → List Value → List Value
  | [], sofar => sofar
  | entries :: rest, sofar => tablesOf rest (.map (valuesOf entries) :: sofar)
end

/-- One statement of a configuration file. -/
inductive Statement
  /-- A value under a key, within the current part. -/
  | assign (key : Key) (v : Value)
  /-- The header of a table, which begins a part. -/
  | declare (key : Key)
  /-- The header of a table in an array of tables, which begins a part. -/
  | append (key : Key)

/-- A file as far as it has been gone through: its entries, the header and the number of the
current part. -/
structure Draft where
  entries : Entries
  header : List String
  part : Nat
  deriving Inhabited

/-- The file of which nothing has been gone through. -/
def Draft.blank : Draft := ⟨[], [], 0⟩

/-- The draft after a statement, unless the statement changes what cannot change any more. -/
def Draft.apply (draft : Draft) : Statement → Option Draft
  | .assign key v => do
    let entries ← within draft.header (assign draft.part key.path key.name v) draft.entries
    return { draft with entries := entries }
  | .declare key => do
    let entries ← declare (draft.part + 1) key draft.entries
    return ⟨entries, key.path ++ [key.name], draft.part + 1⟩
  | .append key => do
    let entries ← append key draft.entries
    return ⟨entries, key.path ++ [key.name], draft.part + 1⟩

/-- The table that statements build. -/
def build (statements : List Statement) : Option (List (Value × Value)) := do
  let draft ← statements.foldlM Draft.apply .blank
  return valuesOf draft.entries

end Ancestry.Toml
