import Ancestry.Text.Reading
import Ancestry.Value.Basic

/-!
# Scalars of configuration files

The readers for what has no parts: texts in their four notations, dates and times, numbers and the
two truth values.  A reader takes the longest beginning of the text that is of its kind; whether
what follows may follow is for its caller to judge.
-/

namespace Ancestry.Toml

open Text (maxDigits natOfDigits natOfBase hexValue? signed after?)

/-- White space within a line. -/
def isBlank (c : Char) : Bool := c = ' ' || c = '\t'

/-- White space, line breaks included. -/
def isSpace (c : Char) : Bool := isBlank c || c = '\n'

/-- A control character that a line cannot hold: all of ASCII's but the tabulator. -/
def isControl (c : Char) : Bool := (c.toNat < 0x20 && c != '\t') || c.toNat == 0x7F

/-! ## Texts -/

/-- The character that a backslash and this letter stand for. -/
def escaped? (c : Char) : Option Char :=
  if c = '\x22' || c = '\\' then some c
  else if c = 'b' then some '\x08'
  else if c = 't' then some '\t'
  else if c = 'n' then some '\n'
  else if c = 'f' then some '\x0C'
  else if c = 'r' then some '\r'
  else none

/-- The character with the given hexadecimal digits as its number. -/
def numbered? (ds : List Char) : Option Char :=
  let n := natOfBase 16 ds
  if ds.all (fun c => (hexValue? c).isSome) && (n < 0xD800 || (0xDFFF < n && n < 0x110000)) then
    some (Char.ofNat n)
  else none

/-- The rest of the text after a backslash at the end of a line and the white space that follows;
nothing but blanks may stand between the two. -/
def joinLines? (cs : List Char) : Option (List Char) :=
  match cs.dropWhile isBlank with
  | '\n' :: rest => some (rest.dropWhile isSpace)
  | _ => none

/-- The rest of a text in double quotes; with `long`, the text goes over lines and ends at three
quotes in a row. -/
def readQuoted (long : Bool) : Nat → List Char → Reading (List Char)
  | 0, _ => .error .malformed
  | _, [] => .error .malformed
  | fuel + 1, c :: rest =>
    let more (c : Char) (rest : List Char) : Reading (List Char) :=
      (readQuoted long fuel rest).map fun (cs, rest) => (c :: cs, rest)
    if c = '\x22' then
      if !long then .ok ([], rest)
      else
        match rest with
        | '\x22' :: '\x22' :: rest => .ok ([], rest)
        | rest => more c rest
    else if c = '\\' then
      match rest with
      | 'u' :: rest =>
        match numbered? (rest.take 4), rest.drop 3 with
        | some c, _ :: rest => more c rest
        | _, _ => .error .malformed
      | 'U' :: rest =>
        match numbered? (rest.take 8), rest.drop 7 with
        | some c, _ :: rest => more c rest
        | _, _ => .error .malformed
      | e :: after =>
        if long && isSpace e then
          match joinLines? rest with
          | some rest => readQuoted long fuel rest
          | none => .error .malformed
        else
          match escaped? e with
          | some c => more c after
          | none => .error .malformed
      | [] => .error .malformed
    else if isControl c && !(long && c = '\n') then .error .malformed
    else more c rest

/-- A text on one line ends at a quote. -/
theorem readQuoted_end (fuel : Nat) (rest : List Char) :
    readQuoted false (fuel + 1) ('\x22' :: rest) = .ok ([], rest) := by
  rw [readQuoted.eq_def]
  simp

/-- The rest of a text in single quotes, in which every character stands for itself; with `long`,
the text goes over lines and ends at three quotes in a row. -/
def readLiteral (long : Bool) : List Char → Reading (List Char)
  | [] => .error .malformed
  | c :: rest =>
    let more : Reading (List Char) :=
      (readLiteral long rest).map fun (cs, rest) => (c :: cs, rest)
    if c = '\x27' then
      if !long then .ok ([], rest)
      else
        match rest with
        | '\x27' :: '\x27' :: rest => .ok ([], rest)
        | _ => more
    else if isControl c && !(long && c = '\n') then .error .malformed
    else more

/-- A text that goes over lines, after its opening quotes.  A line break right after those does not
count, and one or two quotes right before the closing ones belong to the text. -/
def readLong (quote : Char) (cs : List Char) : Reading (List Char) :=
  let cs := match cs with
    | '\n' :: rest => rest
    | cs => cs
  let found := if quote = '\x22' then readQuoted true (cs.length + 1) cs else readLiteral true cs
  found.map fun (text, rest) =>
    let extra := (rest.take 2).takeWhile (· = quote)
    (text ++ extra, rest.drop extra.length)

/-- A text on one line, after its opening quote. -/
def readShort (quote : Char) (cs : List Char) : Reading (List Char) :=
  if quote = '\x22' then readQuoted false (cs.length + 1) cs else readLiteral false cs

/-- A text of either length, after its first quote. -/
def readText (quote : Char) (cs : List Char) : Reading String :=
  let found := match after? [quote, quote] cs with
    | some rest => readLong quote rest
    | none => readShort quote cs
  found.map fun (text, rest) => (String.ofList text, rest)

/-! ## Numbers -/

/-- The digits that come next; a single underscore may stand in front of each. -/
def moreDigits (isDigit : Char → Bool) : List Char → List Char × List Char
  | [] => ([], [])
  | '_' :: c :: rest =>
    if isDigit c then
      let (ds, rest) := moreDigits isDigit rest
      (c :: ds, rest)
    else ([], '_' :: c :: rest)
  | c :: rest =>
    if isDigit c then
      let (ds, rest) := moreDigits isDigit rest
      (c :: ds, rest)
    else ([], c :: rest)

/-- A digit and those that follow it. -/
def digits? (isDigit : Char → Bool) : List Char → Option (List Char × List Char)
  | [] => none
  | c :: rest =>
    if isDigit c then
      let (ds, rest) := moreDigits isDigit rest
      some (c :: ds, rest)
    else none

/-- The bases besides ten: the letter after the zero in front, the base, and its digits. -/
def bases : List (Char × Nat × (Char → Bool)) :=
  [('x', 16, fun c => (hexValue? c).isSome), ('b', 2, fun c => c = '0' || c = '1'),
    ('o', 8, fun c => '0' ≤ c && c ≤ '7')]

/-- An integer of a base besides ten. -/
def basedInteger? (cs : List Char) : Option (Int × List Char) :=
  match cs with
  | '0' :: letter :: rest => do
    let (_, base, isDigit) ← bases.find? (·.1 = letter)
    let (ds, rest) ← digits? isDigit rest
    return ((natOfBase base ds : Nat), rest)
  | _ => none

/-- A sign, and whether it is the negative one. -/
def sign (cs : List Char) : Bool × List Char :=
  match cs with
  | '-' :: rest => (true, rest)
  | '+' :: rest => (false, rest)
  | cs => (false, cs)

/-- The digits of the whole part of a number, which begin with a zero only if that is all. -/
def whole? : List Char → Option (List Char × List Char)
  | '0' :: rest => some (['0'], rest)
  | cs => digits? Char.isDigit cs

/-- The digits after a point, if a point with digits after it comes next. -/
def fraction (cs : List Char) : List Char × List Char :=
  match cs with
  | '.' :: rest => (digits? Char.isDigit rest).getD ([], cs)
  | cs => ([], cs)

/-- The exponent, if one with digits comes next. -/
def exponent? (cs : List Char) : Option (Int × List Char) :=
  match cs with
  | e :: rest => do
    guard (e = 'e' || e = 'E')
    let (negative, rest) := sign rest
    let (ds, rest) ← digits? Char.isDigit rest
    return (signed negative (natOfDigits ds), rest)
  | [] => none

/-- A decimal number.  One without fraction and exponent is an integer, any other is the nearest
floating-point number. -/
def decimal? (cs : List Char) : Option (Reading Value) := do
  let (negative, afterSign) := sign cs
  let (ds, afterWhole) ← whole? afterSign
  let (fs, afterFraction) := fraction afterWhole
  match exponent? afterFraction, fs with
  | none, [] =>
    return if maxDigits < ds.length then .error .hugeInteger
      else .ok (.int (signed negative (natOfDigits ds)), afterWhole)
  | none, fs =>
    return .ok (.float (.ofDecimal negative (natOfDigits (ds ++ fs)) (-fs.length)), afterFraction)
  | some (e, rest), fs =>
    return .ok (.float (.ofDecimal negative (natOfDigits (ds ++ fs)) (e - fs.length)), rest)

/-- A floating-point number that is spelled as a word, with or without a sign. -/
def namedNumber? (cs : List Char) : Option (Value × List Char) :=
  let (negative, unsigned) := sign cs
  match after? "inf".toList unsigned, after? "nan".toList unsigned with
  | some rest, _ => some (.float (.infinite negative), rest)
  | none, some rest => some (.float .nan, rest)
  | none, none => none

/-! ## Dates and times -/

/-- The number that the next `count` characters stand for, if all of them are digits. -/
def fixedDigits? (count : Nat) (cs : List Char) : Option (Nat × List Char) :=
  let ds := cs.take count
  if ds.length = count && ds.all Char.isDigit then some (natOfDigits ds, cs.drop count) else none

/-- Two numbers of two digits with a colon between them, the first below 24 and the second below
60. -/
def hourMinute? (cs : List Char) : Option (Nat × Nat × List Char) := do
  let (hour, rest) ← fixedDigits? 2 cs
  let (minute, rest) ← fixedDigits? 2 (← after? [':'] rest)
  guard (hour < 24 && minute < 60)
  return (hour, minute, rest)

/-- The microseconds after a point, if a point with digits after it comes next; more digits than
six are passed over. -/
def microseconds (cs : List Char) : Nat × List Char :=
  match cs with
  | '.' :: rest =>
    match rest.takeWhile Char.isDigit with
    | [] => (0, cs)
    | ds =>
      let kept := ds.take 6
      (natOfDigits (kept ++ List.replicate (6 - kept.length) '0'), rest.dropWhile Char.isDigit)
  | cs => (0, cs)

/-- A time of day. -/
def clock? (cs : List Char) : Option (Clock × List Char) := do
  let (hour, minute, rest) ← hourMinute? cs
  let (second, rest) ← fixedDigits? 2 (← after? [':'] rest)
  guard (second < 60)
  let (micro, rest) := microseconds rest
  return (⟨hour, minute, second, micro⟩, rest)

/-- The distance from universal time in minutes, if one comes next. -/
def offset (cs : List Char) : Option Int × List Char :=
  match cs with
  | 'Z' :: rest => (some 0, rest)
  | 'z' :: rest => (some 0, rest)
  | c :: rest =>
    if c = '+' || c = '-' then
      match hourMinute? rest with
      | some (hour, minute, rest) => (some (signed (c = '-') (60 * hour + minute)), rest)
      | none => (none, cs)
    else (none, cs)
  | [] => (none, [])

/-- The time of day that comes after a date, if one comes next. -/
def clockAfterDate? (cs : List Char) : Option (Clock × List Char) :=
  match cs with
  | c :: rest => if c = 'T' || c = 't' || c = ' ' then clock? rest else none
  | [] => none

/-- Four digits, two digits and two digits with hyphens between them. -/
def date? (cs : List Char) : Option (Date × List Char) := do
  let (year, rest) ← fixedDigits? 4 cs
  let (month, rest) ← fixedDigits? 2 (← after? ['-'] rest)
  let (day, rest) ← fixedDigits? 2 (← after? ['-'] rest)
  return (⟨year, month, day⟩, rest)

/-- A date, with a time of day or without.  One that is not on the calendar is no value. -/
def dated? (cs : List Char) : Option (Reading Value) := do
  let (date, afterDate) ← date? cs
  if !date.exists then return .error .malformed
  match clockAfterDate? afterDate with
  | some (clock, rest) =>
    let (offset, rest) := offset rest
    return .ok (.moment (.dateTime date clock offset), rest)
  | none => return .ok (.moment (.date date), afterDate)

/-- A time of day. -/
def timed? (cs : List Char) : Option (Value × List Char) :=
  (clock? cs).map fun (clock, rest) => (.moment (.time clock), rest)

/-! ## All scalars but texts -/

/-- A truth value. -/
def truth? (cs : List Char) : Option (Value × List Char) :=
  match after? "true".toList cs, after? "false".toList cs with
  | some rest, _ => some (.bool true, rest)
  | none, some rest => some (.bool false, rest)
  | none, none => none

/-- A truth value, a date, a time of day or a number. -/
def readScalar (cs : List Char) : Reading Value :=
  let found :=
    ((truth? cs).map .ok) <|> dated? cs <|> ((timed? cs).map .ok) <|>
      ((basedInteger? cs).map fun (n, rest) => .ok (.int n, rest)) <|> decimal? cs <|>
      ((namedNumber? cs).map .ok)
  found.getD (.error .malformed)

end Ancestry.Toml
