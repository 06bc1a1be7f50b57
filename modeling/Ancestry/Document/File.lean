import Ancestry.Json.Canonical
import Ancestry.Json.Reader

/-!
# Files

What stands at a path, and what is read from it.  A document that cannot be read counts as the empty
object.  Three things are not passed over: a name under which nothing can be looked up, an integer
of too many digits, and half a character that stands alone.
-/

namespace Ancestry

/-- What stands at a path. -/
inductive File
  | missing
  /-- Nothing can be looked up under so long a name. -/
  | nameTooLong
  | directory
  | regular (bytes : ByteArray)

namespace File

/-- Whether there is a file to be read. -/
def isRegular : File → Bool
  | .regular _ => true
  | _ => false

/-- The entries of the object that a value is; none, if it is no object. -/
def objectEntries (v : Value) : List (Value × Value) :=
  match Json.canonical v with
  | .map es => es
  | _ => []

/-- Why a file does not count as the empty object although no value is read from it. -/
inductive ReadFailure
  /-- Its name is too long for it to be looked up. -/
  | nameTooLong
  /-- It comes to an integer of too many digits. -/
  | hugeInteger
  /-- It has half a character in it that stands alone.  What becomes of such a text is left open. -/
  | loneHalf
  deriving DecidableEq, Repr

/-- The canonical entries of the object that a file holds. -/
def readObject (file : File) : Except ReadFailure (List (Value × Value)) :=
  match file with
  | .regular bytes =>
    match String.fromUTF8? bytes with
    | none => .ok []
    | some text =>
      match Json.read text with
      | .ok v => .ok (objectEntries v)
      | .error .malformed => .ok []
      | .error .hugeInteger => .error .hugeInteger
      | .error .loneHalf => .error .loneHalf
  | .nameTooLong => .error .nameTooLong
  | _ => .ok []

end File
end Ancestry
