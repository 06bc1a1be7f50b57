import Std.Data.ExtTreeMap
import Ancestry.Json.Writer
import Ancestry.Value.Written

/-!
# Canonical values

Two documents that differ in the order of keys only have the same canonical value: in every map the
keys are texts, in ascending order.  A key that is not a text becomes one; of entries whose keys
become the same text the last one counts.  Maps within tuples and sets are left alone.
-/

namespace Ancestry.Json

/-- Entries in ascending order of their keys, of which a later one replaces an earlier one. -/
def sortEntries (entries : List (String × Value)) : List (String × Value) :=
  (entries.foldl (fun m e => m.insert e.1 e.2)
    (∅ : Std.ExtTreeMap String Value compare)).toList

/-- Entries with texts for keys as entries of a map. -/
def textEntries (entries : List (String × Value)) : List (Value × Value) :=
  entries.map fun e => (.text e.1, e.2)

mutual
/-- The canonical form of a value. -/
def canonical : Value → Value
  | .map es => .map (textEntries (sortEntries (canonicalEntries es)))
  | .list xs => .list (canonicalItems xs)
  | v => v
/-- The canonical forms of the values of a list. -/
def canonicalItems : List Value → List Value
  | [] => []
  | x :: xs => canonical x :: canonicalItems xs
/-- Entries with their keys as texts and their values in canonical form. -/
def canonicalEntries : List (Value × Value) → List (String × Value)
  | [] => []
  | (k, v) :: es => (k.label, canonical v) :: canonicalEntries es
end

/-- The written form of the canonical value. -/
def writeCanonical (v : Value) : Except WriteError String := write (canonical v)

end Ancestry.Json
