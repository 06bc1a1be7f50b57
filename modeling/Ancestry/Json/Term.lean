import Ancestry.Value.Basic

/-!
# Documents as they are written

What a document is before a value is made of it.  A character within a text may be written by its
number, and one beyond 16 bits by the numbers of its two halves; so a text is kept as the numbers
that are written there, and an object as its entries one after the other, with those whose keys come
again.

A half that stands alone is half of no character, and a text with one in it is none that a value
could hold.  Such a document has no value here (`Term.value?`).
-/

namespace Ancestry.Json

/-! ## Texts -/

/-- Whether a number is the first half of a pair that stands for one character. -/
def isHighHalf (n : Nat) : Bool := 0xD800 ≤ n && n ≤ 0xDBFF

/-- Whether a number is the second half of a pair that stands for one character. -/
def isLowHalf (n : Nat) : Bool := 0xDC00 ≤ n && n ≤ 0xDFFF

/-- The character that a pair of halves stands for. -/
def joinHalves (high low : Nat) : Char :=
  Char.ofNat (0x10000 + (high - 0xD800) * 0x400 + (low - 0xDC00))

/-- The character that a number stands for, if it is not half of one. -/
def charOfUnit? (n : Nat) : Option Char :=
  if isHighHalf n || isLowHalf n then none else some (Char.ofNat n)

/-- The characters that numbers of characters and of halves stand for, if no half stands alone. -/
def charsOfUnits? : List Nat → Option (List Char)
  | [] => some []
  | [n] => (charOfUnit? n).map ([·])
  | n :: m :: rest =>
    if isHighHalf n && isLowHalf m then (charsOfUnits? rest).map (joinHalves n m :: ·)
    else do return (← charOfUnit? n) :: (← charsOfUnits? (m :: rest))

/-- The text that numbers of characters and of halves stand for. -/
def textOfUnits? (ns : List Nat) : Option String := (charsOfUnits? ns).map String.ofList

/-! ## Values -/

/-- A document or a part of one. -/
inductive Term
  | null
  | bool (b : Bool)
  | int (n : Int)
  | float (x : Binary64)
  /-- The numbers of characters and of halves of characters. -/
  | text (units : List Nat)
  | list (items : List Term)
  | map (entries : List (List Nat × Term))

namespace Term

mutual
/-- The value that a document stands for.  A key that is repeated in an object keeps its first place
and takes its last value. -/
def value? : Term → Option Value
  | .null => some .null
  | .bool b => some (.bool b)
  | .int n => some (.int n)
  | .float x => some (.float x)
  | .text ns => (textOfUnits? ns).map .text
  | .list xs => (items? xs).map .list
  | .map es => (entries? es).map .ofPairs
/-- The values of the items of an array. -/
def items? : List Term → Option (List Value)
  | [] => some []
  | x :: xs => do return (← value? x) :: (← items? xs)
/-- The entries of an object with their keys and values. -/
def entries? : List (List Nat × Term) → Option (List (Value × Value))
  | [] => some []
  | (ns, x) :: es => do return (.text (← textOfUnits? ns), ← value? x) :: (← entries? es)
end

end Term
end Ancestry.Json
