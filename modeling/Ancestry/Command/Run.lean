import Ancestry.Closure.Batch
import Ancestry.Closure.Registry
import Ancestry.Command.Arguments
import Ancestry.Command.Report
import Ancestry.Document.Load
import Ancestry.Settings.Load

/-!
# Running the commands

From a request and the files at hand to what the run leaves behind.  The checks come in a fixed
order, and the first that fails ends the run before anything is written: the configuration file,
the namespace of the core system, the two documents, the names in them, and the number of workers.

The number of workers has no influence on the answers, so the queries of a batch run one after the
other.  The order in which the supertypes of a type are taken is left to whoever runs a command.
-/

namespace Ancestry.Command

open Closure

/-- Why a run ends without an answer. -/
inductive Failure
  | settings (e : Settings.LoadError)
  | document (e : Document.LoadError)
  | input (fault : Fault)

/-- The number of flaws in a document, in words. -/
def countFlaws (n : Nat) (title : String) : String :=
  toString n ++ (if n = 1 then " validation error for " else " validation errors for ") ++ title

/-- The wording of a failure. -/
def Failure.message : Failure → String
  | .settings .notUnicode => "The configuration file is no text"
  | .settings .hugeInteger => "The configuration file holds an integer of too many digits"
  | .document .hugeInteger => "A hierarchy payload holds an integer of too many digits"
  | .document .loneHalf => "A hierarchy payload holds half a character that stands alone"
  | .document (.nameTooLong path) => "File name too long: " ++ path
  | .document (.notFound path) => "Hierarchy payload not found: " ++ path
  | .document (.unfit schema complaints) =>
    "Invalid hierarchy payload: " ++ countFlaws complaints.length schema.title
  | .document (.refused fault) => "Invalid input: " ++ fault.message
  | .input fault => "Invalid input: " ++ fault.message

/-- Whether a failure means that the input is refused.  The other failures are those of reading a
file that no check expects. -/
def Failure.isRefusal : Failure → Bool
  | .settings _ => false
  | .document (.nameTooLong _) => false
  | .document .hugeInteger => false
  | .document .loneHalf => false
  | _ => true

/-- What a run leaves behind that ends with a failure. -/
def Failure.output (failure : Failure) : Output :=
  if failure.isRefusal then .refusal failure.message
  else ⟨1, "", writeLines [failure.message]⟩

/-- The settings that the command line gives. -/
def givenSettings (corePrefix : Option String) (jobs : Option Nat) (dotted : Option Bool) :
    Settings :=
  ⟨[(.text "core_prefix", corePrefix.elim .null .text),
    (.text "jobs", jobs.elim .null fun n => .int n),
    (.text "dotted_names", dotted.elim .null .bool)]⟩

/-- The settings of a run. -/
def Request.settings (request : Request) (jobs : Option Nat) (dotted : Option Bool)
    (files : String → File) : Except Failure Settings := do
  let defaults ← (Settings.load (files (request.config.getD Settings.standardFile))).mapError
    .settings
  return .merge (givenSettings request.corePrefix jobs dotted) defaults

/-- The documents of a run, as a layer over a table of the ancestors of core types. -/
structure Hierarchy where
  layer : Layer
  core : TypeTable

/-- The registry that a layer and its table make. -/
def Hierarchy.registry (hierarchy : Hierarchy) : Registry :=
  .layered hierarchy.layer [] (.table hierarchy.core)

/-- The table of the ancestors of core types; without a document it is empty. -/
def Request.loadCore (request : Request) (dotted : Bool) (files : String → File) :
    Except Document.LoadError TypeTable :=
  match request.core with
  | none => .ok .empty
  | some path => Document.loadCoreIndex dotted path (files path)

/-- The hierarchy that the documents describe, with its supertypes taken in some order. -/
def Request.hierarchy (request : Request) (arrangement : Arrangement) (settings : Settings)
    (files : String → File) : Except Failure Hierarchy := do
  let dotted := settings.dottedNames
  let space ← settings.coreNamespace.mapError .input
  let entries ← (Document.loadSupertypes dotted request.supertypes
    (files request.supertypes)).mapError .document
  let core ← (request.loadCore dotted files).mapError .document
  let index ← (Document.toTable .supertypes entries).mapError .input
  return ⟨⟨space, index, arrangement⟩, core⟩

/-- The types about which the listener has heard that nothing is known, in ascending order. -/
def unknownTypes (log : List Note) : List TypeName :=
  (TypeSet.ofNames (log.filterMap fun
    | .event ⟨.coreUnknown, t⟩ => some t
    | _ => none)).toList

/-- One line for each event, in the order in which they came. -/
def eventLines (log : List Note) : List String :=
  log.reverse.filterMap fun
    | .event e => some (e.occasion.label ++ " " ++ e.type)
    | .answer .. => none

/-- The answers about types, and the log of the listener.  There are no hooks by which a query could
be cut short. -/
def Hierarchy.report (hierarchy : Hierarchy) (types : List TypeName) :
    AncestorsReport × List Note :=
  let core := Registry.toCore (.table hierarchy.core)
  let (results, world) := hierarchy.layer.queryAll core types ⟨.empty, (), { hooks := [] }⟩
  let log := world.listener.log
  (⟨hierarchy.layer.space, results.toOption.getD [], world.memo, unknownTypes log⟩, log)

/-- Answers `ancestors`. -/
def AncestorsRequest.answer (request : AncestorsRequest) (arrangement : Arrangement)
    (files : String → File) : Except Failure Output := do
  let settings ← request.settings request.jobs request.dotted files
  let hierarchy ← request.hierarchy arrangement settings files
  let _ ← settings.jobs.mapError .input
  let types := if settings.dottedNames then request.types.map internalName else request.types
  let (report, log) := hierarchy.report types
  let events := if request.verbose then eventLines log else []
  return if request.json then ⟨0, writeDocument report.toValue, writeLines events⟩
    else ⟨0, writeLines report.lines, writeLines (events ++ report.warnings)⟩

/-- Answers `status`. -/
def Request.status (request : Request) (arrangement : Arrangement) (files : String → File) :
    Except Failure Output := do
  let settings ← request.settings none none files
  let hierarchy ← request.hierarchy arrangement settings files
  let report : StatusReport :=
    { space := hierarchy.layer.space
      entries := hierarchy.layer.index.size
      coreEmpty := hierarchy.core.isEmpty
      empty := hierarchy.registry.isEmpty }
  return if request.json then ⟨0, writeDocument report.toValue, ""⟩
    else ⟨0, writeLines report.lines, ""⟩

/-- Answers an invocation. -/
def Invocation.answer (invocation : Invocation) (arrangement : Arrangement)
    (files : String → File) : Except Failure Output :=
  match invocation with
  | .help => .ok ⟨0, writeLines usage, ""⟩
  | .ancestors request => request.answer arrangement files
  | .status request => request.status arrangement files

/-- What a command line that is misused leaves behind. -/
def Misuse.output (misuse : Misuse) : Output :=
  ⟨refusalCode, "",
    writeLines ((if misuse.showsUsage then usage else []) ++ boxed "Error" misuse.message)⟩

/-- The paths of the documents that a request names. -/
def Request.documents (request : Request) : List String :=
  request.supertypes :: request.core.toList

/-- The paths of the files that a request names. -/
def Request.paths (request : Request) : List String :=
  request.config.getD Settings.standardFile :: request.documents

/-- The paths of the files that an invocation reads. -/
def Invocation.paths : Invocation → List String
  | .help => []
  | .ancestors request => request.toRequest.paths
  | .status request => request.paths

/-- What a command line leaves behind that is run on the given files, with supertypes taken in the
given order. -/
def run (arrangement : Arrangement) (args : List String) (files : String → File) : Output :=
  match Invocation.read args with
  | .error misuse => misuse.output
  | .ok invocation =>
    match invocation.answer arrangement files with
    | .ok output => output
    | .error failure => failure.output

end Ancestry.Command
