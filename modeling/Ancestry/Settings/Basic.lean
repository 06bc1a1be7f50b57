import Ancestry.CoreNamespace
import Ancestry.Value.Members

/-!
# Settings

The settings of a run come from two places, a section of a configuration file and the command line,
of which the second counts where it says anything.  They are kept as they were given: a setting
that makes no sense is refused where it is needed and not before, and names that mean nothing here
are passed over.
-/

namespace Ancestry

/-- Settings by name. -/
structure Settings where
  entries : List (Value × Value)

namespace Settings

/-- No settings at all. -/
def empty : Settings := ⟨[]⟩

/-- The settings that a value describes; a value that is no map describes none. -/
def ofValue : Value → Settings
  | .map entries => ⟨entries⟩
  | _ => empty

/-- The value of a setting, if it has one; the null value does not count. -/
def get? (settings : Settings) (name : String) : Option Value :=
  match Value.find? settings.entries name with
  | some .null => none
  | found => found

/-- Settings in which those of `given` that have a value replace those of `defaults`. -/
def merge (given defaults : Settings) : Settings :=
  ⟨given.entries.foldl (fun entries (name, v) =>
    match v with
    | .null => entries
    | v => Value.put entries name v) defaults.entries⟩

/-- The settings that two values describe together: `given`, which has to be a map, and in what it
does not say `defaults`, which may also be a collection of pairs. -/
def ofValues (given defaults : Value) : Except Fault Settings := do
  let defaults ← defaults.toEntries
  return merge ⟨← given.entries⟩ ⟨defaults⟩

/-- The namespace of the core system. -/
def coreNamespace (settings : Settings) : Except Fault CoreNamespace :=
  match settings.get? "core_prefix" with
  | none => .ok .standard
  | some v =>
    if v.text?.isSome then CoreNamespace.ofValue v
    else .error (.rule "invalid core_prefix" [("core_prefix", v)])

/-- The number of workers where none is set. -/
def standardJobs : Nat := 4

/-- The number of workers, which is at least one. -/
def jobs (settings : Settings) : Except Fault Nat :=
  match settings.get? "jobs" with
  | none => .ok standardJobs
  | some (.int (.ofNat (n + 1))) => .ok (n + 1)
  | some v => .error (.rule "invalid jobs" [("jobs", v)])

/-- The words that mean yes. -/
def affirmations : List String := ["1", "true", "yes", "on"]

/-- Whether a value means yes: truth itself, an integer that is not zero, or a text that is one of
the words for it, in letters of either case and with white space around it.  The words consist of
letters that no other letters but those of ASCII have for their small ones. -/
def isAffirmative : Value → Bool
  | .bool b => b
  | .int n => n != 0
  | v =>
    match v.text? with
    | some s => affirmations.contains ((Text.trim s).map Char.toLower)
    | none => false

/-- Whether type names are written with dots. -/
def dottedNames (settings : Settings) : Bool :=
  match settings.get? "dotted_names" with
  | some v => isAffirmative v
  | none => false

end Settings
end Ancestry
