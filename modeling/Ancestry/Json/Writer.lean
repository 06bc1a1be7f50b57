import Ancestry.Number.Shortest
import Ancestry.Text.Quoted
import Ancestry.Value.Basic

/-!
# Writing documents

The written form of a value: two blanks to a level, one item or entry to a line, a colon and a
blank after a key, and nothing between the brackets of what is empty.  All characters but the
printable ones of ASCII are written by their numbers, those beyond 16 bits as two halves.
-/

namespace Ancestry.Json

/-- Why a value is not written. -/
inductive WriteError
  /-- There is no form for a value of this kind. -/
  | noForm (v : Value)
  /-- A value of this kind is no key. -/
  | noKey (v : Value)

/-- The wording of the error. -/
def WriteError.message : WriteError → String
  | .noForm v => "Object of type " ++ v.kind ++ " is not JSON serializable"
  | .noKey v => "keys must be str, int, float, bool or None, not " ++ v.kind

/-- A number of 16 bits as an escape. -/
def escapedUnit (n : Nat) : List Char := '\\' :: 'u' :: Text.hexDigits 4 n

/-- One character of a text. -/
def writeChar (c : Char) : List Char :=
  if c = '\x22' then ['\\', '\x22']
  else if c = '\\' then ['\\', '\\']
  else if c = '\n' then ['\\', 'n']
  else if c = '\r' then ['\\', 'r']
  else if c = '\t' then ['\\', 't']
  else if c = '\x0C' then ['\\', 'f']
  else if c = '\x08' then ['\\', 'b']
  else if 0x20 ≤ c.toNat ∧ c.toNat ≤ 0x7E then [c]
  else if c.toNat ≤ 0xFFFF then escapedUnit c.toNat
  else
    let n := c.toNat - 0x10000
    escapedUnit (0xD800 + n / 0x400) ++ escapedUnit (0xDC00 + n % 0x400)

/-- A text in quotes. -/
def writeText (s : String) : List Char :=
  '\x22' :: s.toList.flatMap writeChar ++ ['\x22']

/-- The start of a line at a level. -/
def newLine (level : Nat) : List Char := '\n' :: List.replicate (2 * level) ' '

/-- Parts on lines of their own between brackets; `level` is the level of the brackets. -/
def bracketed (first last : Char) (level : Nat) : List (List Char) → List Char
  | [] => [first, last]
  | part :: parts =>
    first :: newLine (level + 1) ++ part ++
      parts.flatMap (fun p => ',' :: newLine (level + 1) ++ p) ++ newLine level ++ [last]

/-- A number that is not an integer. -/
def writeFloat (x : Binary64) : List Char := (x.render Binary64.documentNotation).toList

/-- A key, which is always written as a text. -/
def writeKey : Value → Except WriteError (List Char)
  | .text s => .ok (writeText s)
  | .branded s => .ok (writeText s)
  | .null => .ok (writeText "null")
  | .bool b => .ok (writeText (if b then "true" else "false"))
  | .int n => .ok (writeText (toString n))
  | .float x => .ok (writeText (x.render Binary64.documentNotation))
  | v => .error (.noKey v)

mutual
/-- A value at a level. -/
def writeValue (level : Nat) : Value → Except WriteError (List Char)
  | .null => .ok "null".toList
  | .bool b => .ok (if b then "true" else "false").toList
  | .int n => .ok (toString n).toList
  | .float x => .ok (writeFloat x)
  | .text s => .ok (writeText s)
  | .branded s => .ok (writeText s)
  | .list xs => do return bracketed '[' ']' level (← writeItems (level + 1) xs)
  | .tuple xs => do return bracketed '[' ']' level (← writeItems (level + 1) xs)
  | .map es => do return bracketed '\x7b' '\x7d' level (← writeEntries (level + 1) es)
  | v => .error (.noForm v)
/-- The values of a list, each at a level. -/
def writeItems (level : Nat) : List Value → Except WriteError (List (List Char))
  | [] => .ok []
  | x :: xs => do
    let first ← writeValue level x
    return first :: (← writeItems level xs)
/-- The entries of a map, each at a level. -/
def writeEntries (level : Nat) : List (Value × Value) → Except WriteError (List (List Char))
  | [] => .ok []
  | (k, v) :: es => do
    let key ← writeKey k
    let value ← writeValue level v
    return (key ++ [':', ' '] ++ value) :: (← writeEntries level es)
end

/-- The written form of a value. -/
def write (v : Value) : Except WriteError String := do
  return String.ofList (← writeValue 0 v)

end Ancestry.Json
