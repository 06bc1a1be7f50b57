/-!
# Binary floating-point numbers

The numbers of the 64-bit binary format, each by its sign, its significand and the power of two
that the significand is multiplied with.  All arithmetic on them is exact arithmetic on integers;
`ofDecimal` reads a decimal number as the nearest of them.
-/

namespace Ancestry

/-- A number of the 64-bit binary floating-point format.  `finite s m q` is `m · 2^q`, negative if
`s` holds. -/
inductive Binary64
  | nan
  | infinite (negative : Bool)
  | finite (negative : Bool) (significand : Nat) (exponent : Int)
  deriving DecidableEq, Repr, Inhabited

namespace Binary64

/-- Two to a power. -/
def twoTo (n : Nat) : Nat := Nat.pow 2 n

/-- Ten to a power. -/
def tenTo (n : Nat) : Nat := Nat.pow 10 n

/-- The least exponent of a finite number. -/
def minExponent : Int := -1074

/-- The greatest exponent of a finite number. -/
def maxExponent : Int := 971

/-- The number zero, with a sign. -/
def zero (negative : Bool) : Binary64 := .finite negative 0 minExponent

/-- The integer nearest to `num / den`; of two equally near ones, the even one. -/
def roundQuotient (num den : Nat) : Nat :=
  let q := num / den
  let r := num % den
  if 2 * r < den then q
  else if den < 2 * r then q + 1
  else if q % 2 = 0 then q else q + 1

/-- The number nearest to `num / den`, where neither is zero; of two equally near ones, the one
with an even significand.  Beyond the greatest finite number it is infinite. -/
def ofQuotient (negative : Bool) (num den : Nat) : Binary64 :=
  let guess : Int := (num.log2 : Int) - (den.log2 : Int) - 52
  let scaled (q : Int) : Nat × Nat :=
    if 0 ≤ q then (num, den * twoTo q.toNat) else (num * twoTo (-q).toNat, den)
  let atGuess := scaled guess
  let q := max (if atGuess.1 < atGuess.2 * twoTo 52 then guess - 1 else guess) minExponent
  let target := scaled q
  let m := roundQuotient target.1 target.2
  let m' := if m = twoTo 53 then twoTo 52 else m
  let q' := if m = twoTo 53 then q + 1 else q
  if maxExponent < q' then .infinite negative else .finite negative m' q'

/-- The number nearest to `digits · 10^exponent`.  An exponent so far out that the answer is zero
or infinite for any number of this many digits is not multiplied out. -/
def ofDecimal (negative : Bool) (digits : Nat) (exponent : Int) : Binary64 :=
  if digits = 0 then zero negative
  else if 400 < exponent then .infinite negative
  else if exponent + digits.log2 < -400 then zero negative
  else if 0 ≤ exponent then ofQuotient negative (digits * tenTo exponent.toNat) 1
  else ofQuotient negative digits (tenTo (-exponent).toNat)

/-- Whether the number is the integer `n`. -/
def isInt (x : Binary64) (n : Int) : Bool :=
  match x with
  | .finite s m q =>
    let signed : Int := if s then -(m : Int) else m
    if 0 ≤ q then signed * twoTo q.toNat == n else signed == n * twoTo (-q).toNat
  | _ => false

/-- Numerical equality: a number that is not one equals nothing, and the two zeros are equal. -/
def numEq : Binary64 → Binary64 → Bool
  | .infinite s, .infinite t => s == t
  | .finite s m q, .finite t n r => (m == 0 && n == 0) || (s == t && m == n && q == r)
  | _, _ => false

end Binary64
end Ancestry
