import Ancestry.Number.Binary64

/-!
# The shortest decimal digits of a binary number

A binary number has many decimal ones that read back as it.  Written out are the fewest digits
that do, and of those with so few digits the nearest to the number.
-/

namespace Ancestry.Binary64

/-- A fraction of natural numbers. -/
structure Fraction where
  num : Nat
  den : Nat

/-- The fraction `m · 2^q`. -/
def Fraction.ofBinary (m : Nat) (q : Int) : Fraction :=
  if 0 ≤ q then ⟨m * twoTo q.toNat, 1⟩ else ⟨m, twoTo (-q).toNat⟩

/-- The fraction `n · 10^s`. -/
def Fraction.ofDecimal (n : Nat) (s : Int) : Fraction :=
  if 0 ≤ s then ⟨n * tenTo s.toNat, 1⟩ else ⟨n, tenTo (-s).toNat⟩

/-- The order of fractions. -/
def Fraction.lt (a b : Fraction) : Bool := a.num * b.den < b.num * a.den

/-- The reals that round to `m · 2^q`, from half way to the number below to half way to the number
above; the ends belong to it iff `m` is even. -/
structure Reach where
  low : Fraction
  high : Fraction
  closed : Bool

/-- The reach of a finite number other than zero.  Below a power of two the numbers lie half as
far apart. -/
def reach (m : Nat) (q : Int) : Reach where
  low := if m = twoTo 52 ∧ minExponent < q then Fraction.ofBinary (4 * m - 1) (q - 2)
    else Fraction.ofBinary (2 * m - 1) (q - 1)
  high := Fraction.ofBinary (2 * m + 1) (q - 1)
  closed := m % 2 = 0

/-- Whether a fraction rounds to the number. -/
def Reach.contains (r : Reach) (x : Fraction) : Bool :=
  if r.closed then !x.lt r.low && !r.high.lt x else r.low.lt x && x.lt r.high

/-- The `p` with `10^(p-1) ≤ x < 10^p`, for a fraction of the size of a finite number: the binary
length of `x` leaves two candidates, which are told apart by comparing. -/
def magnitude (x : Fraction) : Int :=
  let guess := ((x.num.log2 : Int) - (x.den.log2 : Int) - 1) * 30103 / 100000 + 1
  if x.lt (Fraction.ofDecimal 1 (guess - 1)) then guess - 1
  else if x.lt (Fraction.ofDecimal 1 guess) then guess
  else guess + 1

/-- The multiple of `10^s` that rounds to the number `x` and lies nearest to it, if the one next
below `x` or the one next above it does; `lower` has the first of the two. -/
def nearestOnGrid (r : Reach) (x : Fraction) (s : Int) : Option Nat :=
  let unit := Fraction.ofDecimal 1 s
  let lower := x.num * unit.den / (x.den * unit.num)
  let below := Fraction.ofDecimal lower s
  let above := Fraction.ofDecimal (lower + 1) s
  match r.contains below, r.contains above with
  | true, false => some lower
  | false, true => some (lower + 1)
  | false, false => none
  | true, true =>
    -- twice the number against the sum of its two neighbours
    let twice := 2 * x.num * unit.den
    let sum := (2 * lower + 1) * unit.num * x.den
    if twice < sum || (twice = sum && lower % 2 = 0) then some lower else some (lower + 1)

/-- The least `k ≤ 17` digits, with the power of ten of the last one, that read back as the
number; the search starts with `17 - fuel + 1` digits. -/
def shortestFrom (r : Reach) (x : Fraction) (p : Int) : Nat → Nat × Int
  | 0 => (0, 0)
  | fuel + 1 =>
    let s := p - (17 - fuel : Nat)
    match nearestOnGrid r x s with
    | some n => (n, s)
    | none => shortestFrom r x p fuel

/-- The digits of the integer `n` without the zeros at its end, and how many zeros those were. -/
def dropZeros (n : Nat) : List Char × Nat :=
  let digits := (toString n).toList.reverse
  let kept := digits.dropWhile (· = '0')
  (kept.reverse, digits.length - kept.length)

/-- The shortest digits of `m · 2^q`, where `m` is not zero, and the place of the decimal point,
counted from the front of the digits. -/
def shortestDigits (m : Nat) (q : Int) : List Char × Int :=
  let x := Fraction.ofBinary m q
  let (n, s) := shortestFrom (reach m q) x (magnitude x) 17
  let (digits, zeros) := dropZeros n
  (digits, s + zeros + digits.length)

/-- How a floating-point number is laid out once its digits are known. -/
structure Notation where
  /-- The least and the greatest place of the point at which no exponent is written. -/
  leastPlain : Int
  greatestPlain : Int
  /-- The texts of the numbers that have no digits. -/
  nan : String
  infinity : String

/-- Digits with a point at the place `p`, `1` being after the first digit; a whole number keeps one
zero after its point. -/
def plain (digits : List Char) (p : Int) : List Char :=
  if p ≤ 0 then '0' :: '.' :: List.replicate (-p).toNat '0' ++ digits
  else if (digits.length : Int) ≤ p then
    digits ++ List.replicate (p - digits.length).toNat '0' ++ ['.', '0']
  else digits.take p.toNat ++ '.' :: digits.drop p.toNat

/-- Digits with a point after the first, and the exponent with its sign and at least two digits. -/
def scientific (digits : List Char) (p : Int) : List Char :=
  let e := p - 1
  let mantissa := match digits with
    | [] => []
    | [d] => [d]
    | d :: rest => d :: '.' :: rest
  let size := (toString e.natAbs).toList
  mantissa ++ ['e', if e < 0 then '-' else '+'] ++
    (if size.length < 2 then '0' :: size else size)

/-- The text of a number in a notation. -/
def render (layout : Notation) : Binary64 → String
  | .nan => layout.nan
  | .infinite negative => (if negative then "-" else "") ++ layout.infinity
  | .finite negative 0 _ => if negative then "-0.0" else "0.0"
  | .finite negative m q =>
    let (digits, p) := shortestDigits m q
    let body := if layout.leastPlain ≤ p ∧ p ≤ layout.greatestPlain then plain digits p
      else scientific digits p
    String.ofList (if negative then '-' :: body else body)

/-- Numbers in messages: no exponent from `0.0001` to below `10^16`, and words in lower case for
the numbers without digits. -/
def messageNotation : Notation := ⟨-3, 16, "nan", "inf"⟩

/-- Numbers in documents: as in messages, with the words for the numbers without digits spelled
out. -/
def documentNotation : Notation := ⟨-3, 16, "NaN", "Infinity"⟩

end Ancestry.Binary64
