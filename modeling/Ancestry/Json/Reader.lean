import Ancestry.Json.Term
import Ancestry.Text.Reading

/-!
# Reading documents

The reader of the document format: objects, arrays, texts, numbers and the three words, and besides
them the numbers `NaN`, `Infinity` and `-Infinity`.  A number without fraction and exponent is an
integer, any other one is read as the nearest floating-point number.

A text is read in two steps: first as the document that is written there, and then as the value that
the document stands for.  So a text with half a character in it that stands alone is a matter of its
own (`ReadFailure.loneHalf`): it follows the grammar, and yet no value is read from it.
-/

namespace Ancestry.Json

open Text (maxDigits natOfDigits hexValue? signed after?)

/-- White space between tokens. -/
def isSpace (c : Char) : Bool := c = ' ' || c = '\t' || c = '\n' || c = '\r'

/-- The text without the white space in front. -/
def skip (cs : List Char) : List Char := cs.dropWhile isSpace

/-- The number that four hexadecimal digits stand for. -/
def unit? (a b c d : Char) : Option Nat := do
  return (← hexValue? a) * 4096 + (← hexValue? b) * 256 + (← hexValue? c) * 16 + (← hexValue? d)

/-- The character that a backslash and this letter stand for. -/
def escaped? (c : Char) : Option Char :=
  if c = '\x22' || c = '\\' || c = '/' then some c
  else if c = 'b' then some '\x08'
  else if c = 'f' then some '\x0C'
  else if c = 'n' then some '\n'
  else if c = 'r' then some '\r'
  else if c = 't' then some '\t'
  else none

/-- The rest of a text whose opening quote has been read, as the numbers of its characters and of
the halves of characters that are written as such. -/
def readUnits : List Char → Reading (List Nat)
  | [] => .error .malformed
  | c :: rest =>
    if c = '\x22' then .ok ([], rest)
    else if c = '\\' then
      match rest with
      | [] => .error .malformed
      | e :: rest =>
        if e = 'u' then
          match rest with
          | a :: b :: c :: d :: rest =>
            match unit? a b c d with
            | some n => (readUnits rest).map fun p => (n :: p.1, p.2)
            | none => .error .malformed
          | _ => .error .malformed
        else
          match escaped? e with
          | some c => (readUnits rest).map fun p => (c.toNat :: p.1, p.2)
          | none => .error .malformed
    else if c.toNat < 0x20 then .error .malformed
    else (readUnits rest).map fun p => (c.toNat :: p.1, p.2)

/-- The digits of the whole part of a number: a lone zero, or digits that begin with another one. -/
def wholePart : List Char → Option (List Char × List Char)
  | [] => none
  | c :: rest =>
    if c = '0' then some (['0'], rest)
    else if c.isDigit then some (c :: rest.takeWhile Char.isDigit, rest.dropWhile Char.isDigit)
    else none

/-- The digits of the fraction of a number, if a point with a digit after it comes next. -/
def fractionPart : List Char → List Char × List Char
  | '.' :: c :: rest =>
    if c.isDigit then (c :: rest.takeWhile Char.isDigit, rest.dropWhile Char.isDigit)
    else ([], '.' :: c :: rest)
  | cs => ([], cs)

/-- The exponent of a number, if one comes next that has a digit. -/
def exponentPart (cs : List Char) : Option Int × List Char :=
  match cs with
  | e :: rest =>
    if e = 'e' || e = 'E' then
      let (negative, digits) := match rest with
        | '+' :: r => (false, r)
        | '-' :: r => (true, r)
        | r => (false, r)
      match digits.takeWhile Char.isDigit with
      | [] => (none, cs)
      | ds =>
        (some (signed negative (natOfDigits ds)), digits.dropWhile Char.isDigit)
    else (none, cs)
  | [] => (none, [])

/-- A number, after its sign. -/
def readNumber (negative : Bool) (cs : List Char) : Reading Term :=
  match wholePart cs with
  | none => .error .malformed
  | some (whole, afterWhole) =>
    let (fraction, afterFraction) := fractionPart afterWhole
    let (exponent, rest) := exponentPart afterFraction
    if fraction.isEmpty && exponent.isNone then
      if maxDigits < whole.length then .error .hugeInteger
      else .ok (.int (signed negative (natOfDigits whole)), rest)
    else
      let digits := natOfDigits (whole ++ fraction)
      .ok (.float (.ofDecimal negative digits (exponent.getD 0 - fraction.length)), rest)

/-- A value that is spelled as a word. -/
def words : List (List Char × Term) :=
  [("null".toList, .null), ("true".toList, .bool true), ("false".toList, .bool false),
    ("NaN".toList, .float .nan), ("Infinity".toList, .float (.infinite false)),
    ("-Infinity".toList, .float (.infinite true))]

/-- The value of the word that comes next, if one does, and the rest. -/
def readWord (cs : List Char) : Option (Term × List Char) :=
  words.findSome? fun (word, v) => (after? word cs).map (v, ·)

mutual
/-- A value; the text begins with it. -/
def readValue : Nat → List Char → Reading Term
  | 0, _ => .error .malformed
  | fuel + 1, cs =>
    match cs with
    | [] => .error .malformed
    | c :: rest =>
      if c = '\x22' then (readUnits rest).map fun (ns, rest) => (.text ns, rest)
      else if c = '\x7b' then
        match skip rest with
        | '\x7d' :: rest => .ok (.map [], rest)
        | rest => (readEntries fuel rest).map fun (es, rest) => (.map es, rest)
      else if c = '[' then
        match skip rest with
        | ']' :: rest => .ok (.list [], rest)
        | rest => (readItems fuel rest).map fun (xs, rest) => (.list xs, rest)
      else
        match readWord cs with
        | some found => .ok found
        | none => if c = '-' then readNumber true rest else readNumber false cs
/-- The values of an array up to its end; the text begins with the first of them. -/
def readItems : Nat → List Char → Except ReadError (List Term × List Char)
  | 0, _ => .error .malformed
  | fuel + 1, cs => do
    let (v, rest) ← readValue fuel cs
    match skip rest with
    | ',' :: rest =>
      let (vs, rest) ← readItems fuel (skip rest)
      return (v :: vs, rest)
    | ']' :: rest => return ([v], rest)
    | _ => .error .malformed
/-- The entries of an object up to its end; the text begins with the first key. -/
def readEntries : Nat → List Char → Except ReadError (List (List Nat × Term) × List Char)
  | 0, _ => .error .malformed
  | fuel + 1, cs =>
    match cs with
    | '\x22' :: cs => do
      let (key, rest) ← readUnits cs
      match skip rest with
      | ':' :: rest =>
        let (v, rest) ← readValue fuel (skip rest)
        match skip rest with
        | ',' :: rest =>
          let (es, rest) ← readEntries fuel (skip rest)
          return ((key, v) :: es, rest)
        | '\x7d' :: rest => return ([(key, v)], rest)
        | _ => .error .malformed
      | _ => .error .malformed
    | _ => .error .malformed
end

/-- The document that a whole text is.  Every call of a reading function on the way takes a
character off the text at the latest with the call after it, so twice the length is fuel
enough. -/
def readTerm (s : String) : Except ReadError Term := do
  let cs := s.toList
  let (v, rest) ← readValue (2 * cs.length + 2) (skip cs)
  match skip rest with
  | [] => return v
  | _ => .error .malformed

/-- Why no value is read from a text. -/
inductive ReadFailure
  /-- It does not follow the grammar. -/
  | malformed
  /-- It follows the grammar up to an integer of more digits than are converted. -/
  | hugeInteger
  /-- It is a document with half a character in it that stands alone. -/
  | loneHalf
  deriving DecidableEq, Repr

/-- The value that a whole text stands for. -/
def read (s : String) : Except ReadFailure Value :=
  match readTerm s with
  | .ok term =>
    match term.value? with
    | some v => .ok v
    | none => .error .loneHalf
  | .error .malformed => .error .malformed
  | .error .hugeInteger => .error .hugeInteger

end Ancestry.Json
