import Ancestry.Text.Blank
import Ancestry.Text.Reading

/-!
# Numerals

Integers as people type them: with white space around them, with a sign, with zeros in front, with
single underscores between the digits, and with a point and at least one zero at the end.
-/

namespace Ancestry.Text

/-- White space around a numeral.  The four information separators do not count. -/
def isNumeralBlank (c : Char) : Bool :=
  isBlank c && !(0x1C ≤ c.toNat && c.toNat ≤ 0x1F)

/-- Digits without the zeros in front, where at least one character stays.  The underscores among
those zeros go with them, even if several stand together. -/
def withoutLeadingZeros (cs : List Char) : List Char :=
  match cs with
  | '0' :: rest =>
    match rest.dropWhile fun c => c = '0' || c = '_' with
    | [] => cs.drop rest.length
    | rest => rest
  | cs => cs

/-- Digits that have single underscores between them, without the underscores; `afterDigit` says
whether a digit stands right in front of them. -/
def digits? (afterDigit : Bool) : List Char → Option (List Char)
  | [] => if afterDigit then some [] else none
  | c :: rest =>
    if c = '_' then if afterDigit then digits? false rest else none
    else if c.isDigit then (digits? true rest).map (c :: ·)
    else none

/-- Whether what follows the digits of a numeral adds nothing to them: it is empty, or a point and
zeros. -/
def isZeroFraction : List Char → Bool
  | [] => true
  | _ :: zeros => !zeros.isEmpty && zeros.all (· = '0')

/-- The integer that a numeral stands for, if it has no more digits than are converted. -/
def integer? (s : String) : Option Int := do
  let cs := ((s.toList.dropWhile isNumeralBlank).reverse.dropWhile isNumeralBlank).reverse
  let (negative, cs) := match cs with
    | '-' :: rest => (true, rest)
    | '+' :: rest => (false, rest)
    | cs => (false, cs)
  let ds ← digits? false (withoutLeadingZeros (cs.takeWhile (· ≠ '.')))
  if isZeroFraction (cs.dropWhile (· ≠ '.')) && ds.length ≤ maxDigits then
    return signed negative (natOfDigits ds)
  else none

end Ancestry.Text
