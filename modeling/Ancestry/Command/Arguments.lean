import Ancestry.Path
import Ancestry.Text.Numeral

/-!
# The command line

A command line names a command and goes on with its options and, for `ancestors`, with the types
that are asked about, in any order.  An option that takes a value takes the next argument, whatever
that looks like, unless the value is attached to it with an equals sign.  Of an option that is
given more than once the last one counts.  After two hyphens every argument is a type.
-/

namespace Ancestry.Command

/-- An option that takes a value. -/
inductive ValueOption
  | supertypes
  | core
  | config
  | corePrefix
  | jobs
  deriving DecidableEq, Repr

/-- An option that takes no value. -/
inductive Flag
  /-- Type names are written with dots, or are not. -/
  | dotted (yes : Bool)
  | json
  | verbose
  | help
  deriving DecidableEq, Repr

/-- What an option is. -/
inductive Switch
  | value (option : ValueOption)
  | flag (flag : Flag)
  deriving DecidableEq, Repr

/-- The commands. -/
inductive CommandName
  | ancestors
  | status
  deriving DecidableEq, Repr

/-- The command of a name. -/
def CommandName.ofString? (name : String) : Option CommandName :=
  if name = "ancestors" then some .ancestors
  else if name = "status" then some .status
  else none

/-- The options of every command, by their spelling. -/
def commonSwitches : List (String × Switch) :=
  [("--supertypes", .value .supertypes), ("--core", .value .core), ("--config", .value .config),
    ("--core-prefix", .value .corePrefix), ("--json", .flag .json), ("--help", .flag .help)]

/-- The options of a command, by their spelling. -/
def CommandName.switches : CommandName → List (String × Switch)
  | .ancestors => commonSwitches ++
    [("--jobs", .value .jobs), ("--dotted", .flag (.dotted true)),
      ("--internal", .flag (.dotted false)), ("--verbose", .flag .verbose)]
  | .status => commonSwitches

/-- What is wrong with a command line. -/
inductive Misuse
  | noCommand
  | unknownCommand (name : String)
  | unknownOption (name : String)
  /-- Nothing follows an option that takes a value. -/
  | wantsValue (name : String)
  /-- A value is attached to an option that takes none. -/
  | wantsNoValue (name : String)
  | missingOption (name : String)
  | missingTypes
  | unexpectedArgument (arg : String)
  | badJobs (text : String)
  | badPath (text : String)
  deriving DecidableEq, Repr

/-- Whether an argument is an option. -/
def isSwitch (arg : String) : Bool :=
  match arg.toList with
  | '-' :: _ :: _ => true
  | _ => false

/-- The name of an option, and the value that is attached to it with an equals sign. -/
def splitAttached (arg : String) : String × Option String :=
  let cs := arg.toList
  let name := String.ofList (cs.takeWhile (· != '='))
  match cs.dropWhile (· != '=') with
  | [] => (name, none)
  | _ :: value => (name, some (String.ofList value))

/-- The arguments of a command, sorted into types, values and flags, each in the order in which they
were given. -/
structure Arguments where
  types : List String := []
  values : List (ValueOption × String) := []
  flags : List Flag := []
  deriving DecidableEq, Repr

namespace Arguments

/-- The arguments with a type in front. -/
def consType (t : String) (a : Arguments) : Arguments := { a with types := t :: a.types }

/-- The arguments with the value of an option in front. -/
def consValue (o : ValueOption) (v : String) (a : Arguments) : Arguments :=
  { a with values := (o, v) :: a.values }

/-- The arguments with a flag in front. -/
def consFlag (f : Flag) (a : Arguments) : Arguments := { a with flags := f :: a.flags }

/-- Sorts the arguments of a command. -/
def read (switches : List (String × Switch)) : List String → Except Misuse Arguments
  | [] => .ok {}
  | arg :: rest =>
    if arg = "--" then .ok { types := rest }
    else if isSwitch arg then
      let (name, attached) := splitAttached arg
      match switches.lookup name, attached with
      | none, _ => .error (.unknownOption name)
      | some (.flag f), none => (read switches rest).map (consFlag f)
      | some (.flag _), some _ => .error (.wantsNoValue name)
      | some (.value o), some v => (read switches rest).map (consValue o v)
      | some (.value o), none =>
        match rest with
        | [] => .error (.wantsValue name)
        | v :: rest => (read switches rest).map (consValue o v)
    else (read switches rest).map (consType arg)

/-- The last value given for an option. -/
def value? (a : Arguments) (o : ValueOption) : Option String := a.values.reverse.lookup o

/-- Whether a flag is given. -/
def has (a : Arguments) (f : Flag) : Bool := a.flags.contains f

/-- What the last flag on the form of type names says. -/
def dotted? (a : Arguments) : Option Bool :=
  a.flags.reverse.findSome? fun
    | .dotted yes => some yes
    | _ => none

/-- The path given for an option, in its shortest spelling.  The null character stands in no
path. -/
def path? (a : Arguments) (o : ValueOption) : Except Misuse (Option String) :=
  match a.value? o with
  | none => .ok none
  | some text =>
    if text.toList.contains '\x00' then .error (.badPath text) else .ok (some (shortestPath text))

/-- The number of workers given, which is at least one. -/
def jobs? (a : Arguments) : Except Misuse (Option Nat) :=
  match a.value? .jobs with
  | none => .ok none
  | some text =>
    match Text.integer? text with
    | some (.ofNat (n + 1)) => .ok (some (n + 1))
    | _ => .error (.badJobs text)

end Arguments

/-- What both commands are asked to do. -/
structure Request where
  /-- The path of the document with the direct supertypes. -/
  supertypes : String
  /-- The path of the document with the ancestors of the core types. -/
  core : Option String
  /-- The path of the configuration file. -/
  config : Option String
  corePrefix : Option String
  json : Bool
  deriving DecidableEq, Repr

/-- What `ancestors` is asked to do besides. -/
structure AncestorsRequest extends Request where
  types : List String
  jobs : Option Nat
  dotted : Option Bool
  verbose : Bool
  deriving DecidableEq, Repr

/-- What a command line asks for. -/
inductive Invocation
  | help
  | ancestors (request : AncestorsRequest)
  | status (request : Request)
  deriving DecidableEq, Repr

/-- The part of a request that both commands have. -/
def Arguments.request (a : Arguments) : Except Misuse Request := do
  let some supertypes ← a.path? .supertypes | throw (.missingOption "--supertypes")
  let core ← a.path? .core
  let config ← a.path? .config
  return ⟨supertypes, core, config, a.value? .corePrefix, a.has .json⟩

/-- What the arguments of a command ask for. -/
def CommandName.invocation (command : CommandName) (args : List String) :
    Except Misuse Invocation := do
  let a ← Arguments.read command.switches args
  if a.has .help then return .help
  match command with
  | .ancestors =>
    if a.types.isEmpty then throw .missingTypes
    let request ← a.request
    return .ancestors
      { request with
        types := a.types, jobs := ← a.jobs?, dotted := a.dotted?, verbose := a.has .verbose }
  | .status =>
    match a.types with
    | [] => return .status (← a.request)
    | arg :: _ => throw (.unexpectedArgument arg)

/-- Reads what stands in front of the name of a command: whether help is asked for there, or was
asked for before, and the arguments from the name on. -/
def readPreamble (asked : Bool) : List String → Except Misuse (Bool × List String)
  | [] => .ok (asked, [])
  | arg :: rest =>
    if arg = "--" then .ok (asked, rest)
    else if isSwitch arg then
      match splitAttached arg with
      | ("--help", none) => readPreamble true rest
      | ("--help", some _) => .error (.wantsNoValue "--help")
      | (name, _) => .error (.unknownOption name)
    else .ok (asked, arg :: rest)

/-- What a command line asks for.  A name that is not that of a command is read as an option once
more, so that help is given also behind two hyphens. -/
def Invocation.read (args : List String) : Except Misuse Invocation := do
  let (asked, rest) ← readPreamble false args
  if asked then return .help
  match rest with
  | [] => throw .noCommand
  | name :: rest =>
    match CommandName.ofString? name with
    | some command => command.invocation rest
    | none =>
      let (asked, _) ← readPreamble false (name :: rest)
      if asked then return .help else throw (.unknownCommand name)

/-- The wording of a misuse. -/
def Misuse.message : Misuse → String
  | .noCommand => "Missing command."
  | .unknownCommand name => "No such command '" ++ name ++ "'."
  | .unknownOption name => "No such option: " ++ name
  | .wantsValue name => "Option '" ++ name ++ "' requires an argument."
  | .wantsNoValue name => "Option '" ++ name ++ "' does not take a value."
  | .missingOption name => "Missing option '" ++ name ++ "'."
  | .missingTypes => "Missing argument 'TYPES...'."
  | .unexpectedArgument arg => "Got unexpected extra argument (" ++ arg ++ ")"
  | .badJobs text => "Invalid value for '--jobs': '" ++ text ++ "' is not an integer of 1 or more."
  | .badPath text => "Invalid value for a path: '" ++ text ++ "' holds the null character."

/-- Whether the usage of the commands is shown with a misuse.  It is not where an option and its
value do not fit together. -/
def Misuse.showsUsage : Misuse → Bool
  | .wantsValue _ => false
  | .wantsNoValue _ => false
  | _ => true

end Ancestry.Command
