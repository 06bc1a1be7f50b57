import Ancestry.Document.File
import Ancestry.Document.Shape
import Ancestry.TypeTable

/-!
# Loading hierarchy documents

From a document to the table that it describes.  With dotted names every name is brought to
internal form, and entries whose names become the same are united.  The ancestors of the core
system are a table only if no name is empty; supertypes are not looked at so closely before an
index is built of them.
-/

namespace Ancestry.Document

/-- Why there is no table. -/
inductive LoadError
  /-- There is no file at the path. -/
  | notFound (path : String)
  /-- The path is too long for a file to be looked up at it. -/
  | nameTooLong (path : String)
  /-- The document does not have the shape. -/
  | unfit (schema : Schema) (complaints : List Complaint)
  /-- The document names an empty type. -/
  | refused (fault : Fault)
  /-- The document holds an integer of too many digits. -/
  | hugeInteger
  /-- The document has half a character in it that stands alone. -/
  | loneHalf

/-- There is no table because the file at a path is not read. -/
def LoadError.ofReadFailure (path : String) : File.ReadFailure → LoadError
  | .nameTooLong => .nameTooLong path
  | .hugeInteger => .hugeInteger
  | .loneHalf => .loneHalf

/-- The wording for a file that is not there. -/
def notFoundMessage (path : String) : String :=
  "[Errno 2] hierarchy payload not found: " ++ Text.quote path

/-- A name of a document as the name of a type. -/
def typeName (dotted : Bool) (name : String) : TypeName :=
  if dotted then internalName name else name

/-- Entries with the members `names` added under `key`: to those that are there, or at the end. -/
def unite (entries : List (TypeName × TypeSet)) (key : TypeName) (names : TypeSet) :
    List (TypeName × TypeSet) :=
  match entries with
  | [] => [(key, names)]
  | (k, set) :: rest =>
    if k = key then (k, set ∪ names) :: rest else (k, set) :: unite rest key names

/-- The entries of a document as entries of a table, in the order in which their names first
come. -/
def tableEntries (dotted : Bool) (entries : List (String × List String)) :
    List (TypeName × TypeSet) :=
  entries.foldl (fun table (name, names) =>
    unite table (typeName dotted name) (.ofNames (names.map (typeName dotted)))) []

/-- The entries that a value of the shape describes. -/
def parse (schema : Schema) (dotted : Bool) (v : Value) :
    Except LoadError (List (TypeName × TypeSet)) :=
  match check schema v with
  | .ok entries => .ok (tableEntries dotted entries)
  | .error complaints => .error (.unfit schema complaints)

/-- The table with the given entries, if no name is empty. -/
def toTable (schema : Schema) (entries : List (TypeName × TypeSet)) :
    Except Fault TypeTable := do
  return .ofEntries (← entries.mapM fun (name, set) => do
    let name ← TypeTable.nameOfValue "type_id" (.text name)
    let _ ← set.toList.mapM fun t => TypeTable.nameOfValue schema.memberField (.text t)
    return (name, set))

/-- The direct supertypes that a value describes. -/
def parseSupertypes (dotted : Bool) (v : Value) : Except LoadError (List (TypeName × TypeSet)) :=
  parse .supertypes dotted v

/-- The table of ancestors that a value describes. -/
def parseCoreIndex (dotted : Bool) (v : Value) : Except LoadError TypeTable := do
  (toTable .coreIndex (← parse .coreIndex dotted v)).mapError .refused

/-- The value that a file at a path holds. -/
def readPayload (path : String) (file : File) : Except LoadError Value :=
  if file.isRegular then
    match file.readObject with
    | .ok entries => .ok (.map entries)
    | .error e => .error (.ofReadFailure path e)
  else if file matches .nameTooLong then .error (.nameTooLong path)
  else .error (.notFound path)

/-- The direct supertypes that a file describes. -/
def loadSupertypes (dotted : Bool) (path : String) (file : File) :
    Except LoadError (List (TypeName × TypeSet)) := do
  parseSupertypes dotted (← readPayload path file)

/-- The table of ancestors that a file describes. -/
def loadCoreIndex (dotted : Bool) (path : String) (file : File) : Except LoadError TypeTable := do
  parseCoreIndex dotted (← readPayload path file)

end Ancestry.Document
