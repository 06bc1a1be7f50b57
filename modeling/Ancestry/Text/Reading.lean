/-!
# Reading text

What the readers of the two document formats have in common: how a reading function fails and what
it returns, and the numbers that digits stand for.

Every reading function takes what is left of a text and returns what is left after it.
-/

namespace Ancestry

/-- Why a text is not read. -/
inductive ReadError
  /-- It does not follow the grammar. -/
  | malformed
  /-- It holds an integer of more digits than are converted. -/
  | hugeInteger
  deriving DecidableEq, Repr

/-- What is read, and the rest of the text. -/
abbrev Reading (α : Type) := Except ReadError (α × List Char)

namespace Text

/-- The greatest number of digits of an integer in decimal notation. -/
def maxDigits : Nat := 4300

/-- The value of a decimal digit. -/
def digitValue (c : Char) : Nat := c.toNat - '0'.toNat

/-- The number that decimal digits stand for. -/
def natOfDigits (ds : List Char) : Nat := ds.foldl (fun n c => 10 * n + digitValue c) 0

/-- The value of a hexadecimal digit. -/
def hexValue? (c : Char) : Option Nat :=
  if c.isDigit then some (digitValue c)
  else if 'a' ≤ c ∧ c ≤ 'f' then some (c.toNat - 'a'.toNat + 10)
  else if 'A' ≤ c ∧ c ≤ 'F' then some (c.toNat - 'A'.toNat + 10)
  else none

/-- The number that digits of a base stand for, where all of them are hexadecimal digits. -/
def natOfBase (base : Nat) (ds : List Char) : Nat :=
  ds.foldl (fun n c => base * n + (hexValue? c).getD 0) 0

/-- A number with a sign. -/
def signed (negative : Bool) (n : Nat) : Int := if negative then -(n : Int) else n

/-- The rest of a text that begins with `start`. -/
def after? (start cs : List Char) : Option (List Char) :=
  if start.isPrefixOf cs then some (cs.drop start.length) else none

theorem after?_append (start rest : List Char) : after? start (start ++ rest) = some rest := by
  simp [after?]

theorem eq_append_of_after? {start cs rest : List Char} (h : after? start cs = some rest) :
    cs = start ++ rest := by
  unfold after? at h
  split at h
  · rename_i hp
    obtain ⟨t, rfl⟩ := List.isPrefixOf_iff_prefix.1 hp
    simpa using h
  · simp at h

end Text
end Ancestry
