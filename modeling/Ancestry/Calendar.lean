/-!
# Dates and times

Calendar dates, times of day and points in time as configuration files write them, which of them
exist, and their text in the standard form for interchange.
-/

namespace Ancestry

/-- A day of the calendar that has run unchanged since year 1. -/
structure Date where
  year : Nat
  month : Nat
  day : Nat
  deriving DecidableEq, Repr

/-- A time of day, down to the microsecond. -/
structure Clock where
  hour : Nat
  minute : Nat
  second : Nat
  microsecond : Nat
  deriving DecidableEq, Repr

/-- A date, a time of day, or both; with both there may be the distance from universal time, in
minutes. -/
inductive Moment
  | date (d : Date)
  | time (c : Clock)
  | dateTime (d : Date) (c : Clock) (offset : Option Int)
  deriving DecidableEq, Repr

/-- Whether a year has 366 days. -/
def isLeapYear (year : Nat) : Bool :=
  year % 4 == 0 && (year % 100 != 0 || year % 400 == 0)

/-- The number of days of a month. -/
def daysInMonth (year month : Nat) : Nat :=
  match month with
  | 2 => if isLeapYear year then 29 else 28
  | 4 | 6 | 9 | 11 => 30
  | _ => 31

/-- Whether the date is on the calendar, from year 1 to year 9999. -/
def Date.exists (d : Date) : Bool :=
  1 ≤ d.year && d.year ≤ 9999 && 1 ≤ d.month && d.month ≤ 12 && 1 ≤ d.day &&
    d.day ≤ daysInMonth d.year d.month

/-- Whether the time is on the clock, which has no leap seconds. -/
def Clock.exists (c : Clock) : Bool :=
  c.hour < 24 && c.minute < 60 && c.second < 60 && c.microsecond < 1000000

/-- The decimal digits of `n`, with zeros in front up to `width` of them. -/
def padded (width n : Nat) : String :=
  let digits := (toString n).toList
  String.ofList (List.replicate (width - digits.length) '0' ++ digits)

/-- `YYYY-MM-DD`. -/
def Date.iso (d : Date) : String :=
  padded 4 d.year ++ "-" ++ padded 2 d.month ++ "-" ++ padded 2 d.day

/-- `HH:MM:SS`, and six more digits after a point when there is a fraction of a second. -/
def Clock.iso (c : Clock) : String :=
  padded 2 c.hour ++ ":" ++ padded 2 c.minute ++ ":" ++ padded 2 c.second ++
    (if c.microsecond = 0 then "" else "." ++ padded 6 c.microsecond)

/-- A distance from universal time, `±HH:MM`. -/
def isoOffset (minutes : Int) : String :=
  let n := minutes.natAbs
  (if minutes < 0 then "-" else "+") ++ padded 2 (n / 60) ++ ":" ++ padded 2 (n % 60)

/-- The text of a moment, with a separator between date and time. -/
def Moment.separated (separator : String) : Moment → String
  | .date d => d.iso
  | .time c => c.iso
  | .dateTime d c none => d.iso ++ separator ++ c.iso
  | .dateTime d c (some offset) => d.iso ++ separator ++ c.iso ++ isoOffset offset

/-- The standard text of a moment. -/
def Moment.iso : Moment → String := separated "T"

/-- The standard text of a moment, with a blank between date and time. -/
def Moment.spaced : Moment → String := separated " "

end Ancestry
