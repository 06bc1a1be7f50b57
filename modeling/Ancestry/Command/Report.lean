import Ancestry.CoreNamespace
import Ancestry.Json.Canonical
import Ancestry.Memo
import Ancestry.Text.Styling

/-!
# Reports

What the two commands have to say, as lines for people and as a document for programs.
-/

namespace Ancestry.Command

/-- What a run leaves behind: its exit code, and what it has written to its two outputs. -/
structure Output where
  exitCode : Nat
  out : String
  err : String
  deriving DecidableEq, Repr

/-- The exit code of a run whose input is refused. -/
def refusalCode : Nat := 2

/-- Lines of text as they are written. -/
def writeLines (lines : List String) : String :=
  String.join (lines.map fun line => Text.plain line ++ "\n")

/-- The output of a run whose input is refused. -/
def Output.refusal (message : String) : Output := ⟨refusalCode, "", writeLines [message]⟩

/-- A value as a document on a line of its own. -/
def writeDocument (v : Value) : String :=
  match Json.writeCanonical v with
  | .ok text => text ++ "\n"
  | .error e => e.message ++ "\n"

/-- An object with the given fields. -/
def object (fields : List (String × Value)) : Value :=
  .map (fields.map fun (name, v) => (.text name, v))

/-- Names as a value. -/
def namesValue (names : List TypeName) : Value := .list (names.map .text)

/-- The answers to a batch of queries. -/
structure AncestorsReport where
  space : CoreNamespace
  /-- The types that were asked about, with their core ancestors in ascending order. -/
  results : List (TypeName × List TypeName)
  /-- The memo after all queries. -/
  memo : Memo
  /-- The core types of which nothing is known, in ascending order. -/
  unknown : List TypeName

namespace AncestorsReport

/-- The counters of the memo. -/
def stats (report : AncestorsReport) : Value :=
  object
    [("hits", .int report.memo.hits), ("misses", .int report.memo.misses),
      ("stores", .int report.memo.stores), ("size", .int report.memo.size)]

/-- The report as a value. -/
def toValue (report : AncestorsReport) : Value :=
  object
    [("core_prefix", .text report.space.stem),
      ("results", object (report.results.map fun (t, names) => (t, namesValue names))),
      ("stats", report.stats), ("unknown_core_types", namesValue report.unknown)]

/-- One line for each type that was asked about. -/
def lines (report : AncestorsReport) : List String :=
  report.results.map fun (t, names) =>
    t ++ ": " ++ if names.isEmpty then "(none)" else ", ".intercalate names

/-- One line for each core type of which nothing is known. -/
def warnings (report : AncestorsReport) : List String :=
  report.unknown.map ("warning: no core data for " ++ ·)

end AncestorsReport

/-- What there is to know about the documents. -/
structure StatusReport where
  space : CoreNamespace
  /-- The number of types whose supertypes are declared. -/
  entries : Nat
  /-- Whether nothing is known about core types. -/
  coreEmpty : Bool
  /-- Whether nothing is known about any type. -/
  empty : Bool

namespace StatusReport

/-- The report as a value. -/
def toValue (report : StatusReport) : Value :=
  object
    [("core_prefix", .text report.space.stem),
      ("direct_supertype_entries", .int report.entries),
      ("core_registry_empty", .bool report.coreEmpty), ("empty", .bool report.empty)]

/-- A truth value as a word. -/
def word (b : Bool) : String := if b then "true" else "false"

/-- The report in lines. -/
def lines (report : StatusReport) : List String :=
  ["core prefix: " ++ report.space.stem,
    "direct supertype entries: " ++ toString report.entries,
    "core registry empty: " ++ word report.coreEmpty,
    "empty: " ++ word report.empty]

end StatusReport

/-! ## Misuse -/

/-- The columns of a terminal. -/
def columns : Nat := 80

/-- The same character, some number of times. -/
def repeated (n : Nat) (c : Char) : String := String.ofList (List.replicate n c)

/-- Text filled up with blanks at its end. -/
def filled (width : Nat) (s : String) : String := s ++ repeated (width - s.length) ' '

/-- A line in a box with a title. -/
def boxed (title line : String) : List String :=
  let head := "╭─ " ++ title ++ " "
  [head ++ repeated (columns - 1 - head.length) '─' ++ "╮",
    "│ " ++ filled (columns - 4) line ++ " │",
    "╰" ++ repeated (columns - 2) '─' ++ "╯"]

/-- How the commands are used. -/
def usage : List String :=
  ["Usage: ancestors TYPES... --supertypes PATH [--core PATH] [--config PATH] [--core-prefix TEXT]",
    "         [--jobs N] [--dotted|--internal] [--json] [--verbose]",
    "       status --supertypes PATH [--core PATH] [--config PATH] [--core-prefix TEXT] [--json]"]

end Ancestry.Command
