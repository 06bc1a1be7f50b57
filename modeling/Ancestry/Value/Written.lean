import Ancestry.Number.Shortest
import Ancestry.Text.Quoted
import Ancestry.Value.Basic

/-!
# Values written out

How a value is shown inside a message: texts and bytes in quotes, numbers in their shortest form,
brackets around the parts of the others.  `Value.label` is how a value is shown by itself: a text
without quotes, a moment in the standard form.
-/

namespace Ancestry

/-- The parts separated by a comma and a blank. -/
def commaSeparated (parts : List String) : String :=
  ", ".intercalate parts

/-- A length of time, in days and in seconds of a day. -/
def writtenDuration (seconds : Int) : String :=
  let days := seconds.fdiv 86400
  let rest := seconds.fmod 86400
  let parts := (if days = 0 then [] else ["days=" ++ toString days]) ++
    (if rest = 0 then [] else ["seconds=" ++ toString rest])
  "datetime.timedelta(" ++ (if parts.isEmpty then "0" else commaSeparated parts) ++ ")"

/-- A distance from universal time, in minutes. -/
def writtenOffset (minutes : Int) : String :=
  if minutes = 0 then "datetime.timezone.utc"
  else "datetime.timezone(" ++ writtenDuration (minutes * 60) ++ ")"

/-- The fields of a time of day, without the seconds if they and their fraction are zero and
without the fraction if it is. -/
def Clock.fields (c : Clock) : List Nat :=
  [c.hour, c.minute] ++
    (if c.microsecond ≠ 0 then [c.second, c.microsecond]
    else if c.second ≠ 0 then [c.second] else [])

/-- A moment written out. -/
def Moment.written : Moment → String
  | .date d =>
    "datetime.date(" ++ commaSeparated ([d.year, d.month, d.day].map toString) ++ ")"
  | .time c => "datetime.time(" ++ commaSeparated (c.fields.map toString) ++ ")"
  | .dateTime d c offset =>
    let zone := match offset with
      | none => []
      | some minutes => ["tzinfo=" ++ writtenOffset minutes]
    "datetime.datetime(" ++
      commaSeparated (([d.year, d.month, d.day] ++ c.fields).map toString ++ zone) ++ ")"

namespace Value

mutual
/-- A value written out. -/
def written : Value → String
  | .null => "None"
  | .bool b => if b then "True" else "False"
  | .int n => toString n
  | .float x => x.render Binary64.messageNotation
  | .text s => Text.quote s
  | .branded s => Text.quote s
  | .bytes b => Text.quoteBytes b
  | .moment m => m.written
  | .list xs => "[" ++ commaSeparated (writtenItems xs) ++ "]"
  | .tuple xs =>
    match writtenItems xs with
    | [x] => "(" ++ x ++ ",)"
    | ws => "(" ++ commaSeparated ws ++ ")"
  | .set xs =>
    match writtenItems xs with
    | [] => "set()"
    | ws => "\x7b" ++ commaSeparated ws ++ "\x7d"
  | .map es => "\x7b" ++ commaSeparated (writtenEntries es) ++ "\x7d"
/-- The values of a list written out. -/
def writtenItems : List Value → List String
  | [] => []
  | x :: xs => written x :: writtenItems xs
/-- The entries of a map written out. -/
def writtenEntries : List (Value × Value) → List String
  | [] => []
  | (k, v) :: es => (written k ++ ": " ++ written v) :: writtenEntries es
end

/-- A value as a text: a text is its own, a moment is in the standard form with a blank between date
and time, and any other value is written out.  An integer of more than `Text.maxDigits` digits has
no text, and here it has all its digits. -/
def label : Value → String
  | .text s => s
  | .branded s => s
  | .moment m => m.spaced
  | v => v.written

end Value
end Ancestry
