import Ancestry.Document.File
import Ancestry.Settings.Basic
import Ancestry.Toml.Reader

/-!
# Loading settings

From a configuration file to the settings in it.  A file that is not there or does not follow the
grammar sets nothing.  What is not passed over is a file that is no text at all, and an integer of
too many digits.
-/

namespace Ancestry.Settings

/-- The name of the configuration file where none is given. -/
def standardFile : String := "typeclosure.toml"

/-- The section of a configuration file that counts. -/
def sectionName : String := "closure"

/-- Why a configuration file is not passed over although nothing can be read from it. -/
inductive LoadError
  /-- Its bytes do not encode a text. -/
  | notUnicode
  /-- It holds an integer of too many digits. -/
  | hugeInteger
  deriving DecidableEq, Repr

/-- Text in which every line ends in one and the same way. -/
def unifyBreaks : List Char → List Char
  | '\r' :: '\n' :: rest => '\n' :: unifyBreaks rest
  | '\r' :: rest => '\n' :: unifyBreaks rest
  | c :: rest => c :: unifyBreaks rest
  | [] => []

/-- The table that a configuration file describes. -/
def loadTable (file : File) : Except LoadError (List (Value × Value)) :=
  match file with
  | .regular bytes =>
    match String.fromUTF8? bytes with
    | some text =>
      match Toml.read (String.ofList (unifyBreaks text.toList)) with
      | .ok entries => .ok entries
      | .error .malformed => .ok []
      | .error .hugeInteger => .error .hugeInteger
    | none => .error .notUnicode
  | _ => .ok []

/-- The settings in the table of a configuration file. -/
def ofTable (entries : List (Value × Value)) : Settings :=
  match Value.find? entries sectionName with
  | some v => ofValue v
  | none => empty

/-- The settings that a configuration file describes. -/
def load (file : File) : Except LoadError Settings :=
  (loadTable file).map ofTable

end Ancestry.Settings
