import Ancestry.Proofs.Text.Scanning
import Ancestry.Toml.Reader

/-!
# The grammar of configuration files

What a configuration file is, said without a reader: relations between what is meant and the
characters by which it can be written, one rule for each way of writing.  From the outside in they
are scripts, lines, statements, values, and the scalars, keys and gaps that values are made of.

The grammar does not say which statements contradict each other.  That is what `build` is for, and
for the entries of an inline table `assign`, which the grammar mentions since an inline table is
closed where it ends.

An integer has at most `maxDigits` decimal digits.  `Overlong` is about the texts that come to a
longer one: in front of it they follow the grammar, and what comes after it does not matter.

That the reader follows this grammar is shown for texts and keys in `Tokens`, for scalars in
`Numbers`, `Moments` and `Scalars`, for values in `Recognized` and for scripts in `Scripts`.
-/

namespace Ancestry.Toml

open Text (IsDigits maxDigits natOfBase natOfDigits signed signs)

/-! ## 1. Between tokens -/

/-- Blanks within a line, which may be none. -/
def Blanks (ws : List Char) : Prop := ∀ c ∈ ws, isBlank c = true

/-- What may stand in a comment: anything but control characters, and so no end of a line. -/
def IsComment (cs : List Char) : Prop := ∀ c ∈ cs, isControl c = false

/-- Between the tokens of an array lines may end, and there may be comments at their ends. -/
inductive Gap : List Char → Prop
  | nil : Gap []
  | space {c : Char} {cs : List Char} (hc : isSpace c = true) (h : Gap cs) : Gap (c :: cs)
  | comment {ds cs : List Char} (hds : IsComment ds) (h : Gap cs) : Gap ('#' :: (ds ++ '\n' :: cs))

/-- What may stand at the end of a line: blanks and a comment. -/
inductive LineEnd : List Char → Prop
  | blanks {ws : List Char} (hws : Blanks ws) : LineEnd ws
  | comment {ws ds : List Char} (hws : Blanks ws) (hds : IsComment ds) : LineEnd (ws ++ '#' :: ds)

/-! ## 2. Texts and keys -/

/-- The quotes of texts. -/
def IsQuote (q : Char) : Prop := q = '\x22' ∨ q = '\x27'

/-- The characters stand, within a text in such quotes, for one character.  In single quotes every
character stands for itself. -/
inductive SpellsChar (q : Char) : Char → List Char → Prop
  | itself {c : Char} (hquote : c ≠ q) (hslash : q = '\x22' → c ≠ '\\')
    (hcontrol : isControl c = false) : SpellsChar q c [c]
  | letter {e c : Char} (hq : q = '\x22') (h : escaped? e = some c) : SpellsChar q c ['\\', e]
  | number {c : Char} {ds : List Char} (hq : q = '\x22') (hlen : ds.length = 4)
    (h : numbered? ds = some c) : SpellsChar q c ('\\' :: 'u' :: ds)
  | longNumber {c : Char} {ds : List Char} (hq : q = '\x22') (hlen : ds.length = 8)
    (h : numbered? ds = some c) : SpellsChar q c ('\\' :: 'U' :: ds)

/-- The characters stand, within a text on one line, for the text. -/
inductive SpellsLine (q : Char) : List Char → List Char → Prop
  | nil : SpellsLine q [] []
  | cons {c : Char} {cs us ds : List Char} (hc : SpellsChar q c us) (h : SpellsLine q cs ds) :
    SpellsLine q (c :: cs) (us ++ ds)

/-- There are characters, and the first of them is no quote. -/
def GoesOn (q : Char) (cs : List Char) : Prop := ∃ c ds, cs = c :: ds ∧ c ≠ q

/-- The characters stand, within a text over several lines, for the text.  One or two quotes in a
row stand for themselves where something else comes after them.  With a backslash at its end a line
goes on in the next one, from the first character on that is not white space. -/
inductive SpellsLines (q : Char) : List Char → List Char → Prop
  | nil : SpellsLines q [] []
  | cons {c : Char} {cs us ds : List Char} (hc : SpellsChar q c us) (h : SpellsLines q cs ds) :
    SpellsLines q (c :: cs) (us ++ ds)
  | newLine {cs ds : List Char} (h : SpellsLines q cs ds) : SpellsLines q ('\n' :: cs) ('\n' :: ds)
  | joined {cs ws ws' ds : List Char} (hq : q = '\x22') (hws : Blanks ws)
    (hws' : ∀ c ∈ ws', isSpace c = true) (hend : ∀ c ∈ ds.head?, isSpace c = false)
    (h : SpellsLines q cs ds) : SpellsLines q cs ('\\' :: (ws ++ '\n' :: (ws' ++ ds)))
  | quote {cs ds : List Char} (h : SpellsLines q cs ds) (hmore : GoesOn q ds) :
    SpellsLines q (q :: cs) (q :: ds)
  | quotes {cs ds : List Char} (h : SpellsLines q cs ds) (hmore : GoesOn q ds) :
    SpellsLines q (q :: q :: cs) (q :: q :: ds)

/-- The characters are the text on one line, in quotes. -/
def SpellsShort (q : Char) (text cs : List Char) : Prop :=
  ∃ ds, SpellsLine q text ds ∧ cs = q :: (ds ++ [q])

/-- The characters are the text over several lines, in quotes.  A line break right after the opening
quotes does not count, and up to two quotes right before the closing ones belong to the text. -/
def SpellsLong (q : Char) (text cs : List Char) : Prop :=
  ∃ start body ds n, SpellsLines q body ds ∧ n ≤ 2 ∧ text = body ++ List.replicate n q ∧
    (start = ['\n'] ∨ start = [] ∧ ds.head? ≠ some '\n') ∧
    cs = q :: q :: q :: (start ++ (ds ++ q :: q :: q :: List.replicate n q))

/-- The characters are the text. -/
inductive SpellsText : String → List Char → Prop
  | short {q : Char} {text cs : List Char} (hq : IsQuote q) (h : SpellsShort q text cs) :
    SpellsText (String.ofList text) cs
  | long {q : Char} {text cs : List Char} (hq : IsQuote q) (h : SpellsLong q text cs) :
    SpellsText (String.ofList text) cs

/-- The characters are one of the names of a key. -/
inductive SpellsName : String → List Char → Prop
  | bare {cs : List Char} (hne : cs ≠ []) (h : ∀ c ∈ cs, isBareKeyChar c = true) :
    SpellsName (String.ofList cs) cs
  | quoted {q : Char} {text cs : List Char} (hq : IsQuote q) (h : SpellsShort q text cs) :
    SpellsName (String.ofList text) cs

/-- The characters are the names of a key, and blanks after them. -/
inductive SpellsNames : List String → String → List Char → Prop
  | last {name : String} {cs ws : List Char} (h : SpellsName name cs) (hws : Blanks ws) :
    SpellsNames [] name (cs ++ ws)
  | cons {name last : String} {path : List String} {cs ws ws' ds : List Char}
    (h : SpellsName name cs) (hws : Blanks ws) (hws' : Blanks ws')
    (hmore : SpellsNames path last ds) :
    SpellsNames (name :: path) last (cs ++ (ws ++ '.' :: (ws' ++ ds)))

/-- The characters are the key, and blanks after it. -/
def SpellsKey (key : Key) (cs : List Char) : Prop := SpellsNames key.path key.name cs

/-! ## 3. Numbers, dates and times -/

/-- Digits of a kind, and the characters by which they are written: single underscores may stand
between them. -/
inductive SpellsDigits (isDigit : Char → Bool) : List Char → List Char → Prop
  | one {d : Char} (hd : isDigit d = true) : SpellsDigits isDigit [d] [d]
  | cons {d : Char} {ds cs : List Char} (hd : isDigit d = true) (h : SpellsDigits isDigit ds cs) :
    SpellsDigits isDigit (d :: ds) (d :: cs)
  | underscore {d : Char} {ds cs : List Char} (hd : isDigit d = true)
    (h : SpellsDigits isDigit ds cs) : SpellsDigits isDigit (d :: ds) (d :: '_' :: cs)

/-- The digits of a decimal number in front of its fraction, and the characters: they do not begin
with a zero unless that is all. -/
inductive SpellsWhole : List Char → List Char → Prop
  | zero : SpellsWhole ['0'] ['0']
  | digits {ds cs : List Char} (h : SpellsDigits Char.isDigit ds cs) (hzero : cs.head? ≠ some '0') :
    SpellsWhole ds cs

/-- The characters are a fraction with these digits, or none. -/
inductive SpellsFraction : List Char → List Char → Prop
  | none : SpellsFraction [] []
  | some {ds cs : List Char} (h : SpellsDigits Char.isDigit ds cs) : SpellsFraction ds ('.' :: cs)

/-- The characters are the exponent, or there is none. -/
inductive SpellsExponent : Option Int → List Char → Prop
  | none : SpellsExponent none []
  | some {e : Char} {sign ds cs : List Char} {negative : Bool} (he : e = 'e' ∨ e = 'E')
    (hsign : (sign, negative) ∈ signs) (h : SpellsDigits Char.isDigit ds cs) :
    SpellsExponent (some (signed negative (natOfDigits ds))) (e :: (sign ++ cs))

/-- The characters are so many digits, which stand for the number. -/
def SpellsFixed (count n : Nat) (cs : List Char) : Prop :=
  cs.length = count ∧ (∀ c ∈ cs, c.isDigit = true) ∧ n = natOfDigits cs

/-- The characters are the date, which is on the calendar. -/
def SpellsDate (date : Date) (cs : List Char) : Prop :=
  ∃ ys ms ds, SpellsFixed 4 date.year ys ∧ SpellsFixed 2 date.month ms ∧
    SpellsFixed 2 date.day ds ∧ date.exists = true ∧ cs = ys ++ '-' :: (ms ++ '-' :: ds)

/-- The characters are the hour and the minute. -/
def SpellsHourMinute (hour minute : Nat) (cs : List Char) : Prop :=
  ∃ hs ms, SpellsFixed 2 hour hs ∧ hour < 24 ∧ SpellsFixed 2 minute ms ∧ minute < 60 ∧
    cs = hs ++ ':' :: ms

/-- The characters are a fraction of a second, of which six digits count, or none. -/
inductive SpellsMicroseconds : Nat → List Char → Prop
  | none : SpellsMicroseconds 0 []
  | some {ds : List Char} (hds : IsDigits ds) :
    SpellsMicroseconds
      (natOfDigits (ds.take 6 ++ List.replicate (6 - (ds.take 6).length) '0')) ('.' :: ds)

/-- The characters are the time of day. -/
def SpellsClock (clock : Clock) (cs : List Char) : Prop :=
  ∃ hm ss fraction, SpellsHourMinute clock.hour clock.minute hm ∧ SpellsFixed 2 clock.second ss ∧
    clock.second < 60 ∧ SpellsMicroseconds clock.microsecond fraction ∧
    cs = hm ++ ':' :: (ss ++ fraction)

/-- The characters are the distance from universal time in minutes, or there is none. -/
inductive SpellsOffset : Option Int → List Char → Prop
  | none : SpellsOffset none []
  | zero {z : Char} (hz : z = 'Z' ∨ z = 'z') : SpellsOffset (some 0) [z]
  | some {sign : Char} {hour minute : Nat} {cs : List Char} (hsign : sign = '+' ∨ sign = '-')
    (h : SpellsHourMinute hour minute cs) :
    SpellsOffset (some (signed (sign = '-') (60 * hour + minute))) (sign :: cs)

/-- **The scalars but texts**: the characters are the value. -/
inductive SpellsScalar : Value → List Char → Prop
  | yes : SpellsScalar (.bool true) "true".toList
  | no : SpellsScalar (.bool false) "false".toList
  | integer {negative : Bool} {sign ds cs : List Char} (hsign : (sign, negative) ∈ signs)
    (h : SpellsWhole ds cs) (hfew : ds.length ≤ maxDigits) :
    SpellsScalar (.int (signed negative (natOfDigits ds))) (sign ++ cs)
  | based {letter : Char} {base : Nat} {isDigit : Char → Bool} {ds cs : List Char}
    (hbase : (letter, base, isDigit) ∈ bases) (h : SpellsDigits isDigit ds cs) :
    SpellsScalar (.int (natOfBase base ds : Nat)) ('0' :: letter :: cs)
  | decimal {negative : Bool} {sign ds cs fs fraction exponent : List Char} {e : Option Int}
    (hsign : (sign, negative) ∈ signs) (h : SpellsWhole ds cs) (hfs : SpellsFraction fs fraction)
    (he : SpellsExponent e exponent) (hmore : fs ≠ [] ∨ e ≠ none) :
    SpellsScalar (.float (.ofDecimal negative (natOfDigits (ds ++ fs)) (e.getD 0 - fs.length)))
      (sign ++ (cs ++ (fraction ++ exponent)))
  | infinite {negative : Bool} {sign : List Char} (hsign : (sign, negative) ∈ signs) :
    SpellsScalar (.float (.infinite negative)) (sign ++ "inf".toList)
  | nan {negative : Bool} {sign : List Char} (hsign : (sign, negative) ∈ signs) :
    SpellsScalar (.float .nan) (sign ++ "nan".toList)
  | date {date : Date} {cs : List Char} (h : SpellsDate date cs) :
    SpellsScalar (.moment (.date date)) cs
  | time {clock : Clock} {cs : List Char} (h : SpellsClock clock cs) :
    SpellsScalar (.moment (.time clock)) cs
  | dateTime {date : Date} {clock : Clock} {offset : Option Int} {ds cs os : List Char} {t : Char}
    (hdate : SpellsDate date ds) (ht : t = 'T' ∨ t = 't' ∨ t = ' ') (hclock : SpellsClock clock cs)
    (hoffset : SpellsOffset offset os) :
    SpellsScalar (.moment (.dateTime date clock offset)) (ds ++ t :: (cs ++ os))

/-! ## 4. Values -/

/-- What a part of a value holds. -/
inductive Part
  | value (v : Value)
  | items (vs : List Value)
  /-- The entries of an inline table, of which there is at least one, make the second ones of the
  first ones. -/
  | inline (before after : Entries)

/-- **The grammar of values**: the characters are the value, or what stands between two brackets. -/
inductive Spells : Part → List Char → Prop
  | text {text : String} {cs : List Char} (h : SpellsText text cs) : Spells (.value (.text text)) cs
  | scalar {v : Value} {cs : List Char} (h : SpellsScalar v cs) : Spells (.value v) cs
  | array {vs : List Value} {cs : List Char} (h : Spells (.items vs) cs) :
    Spells (.value (.list vs)) ('[' :: (cs ++ [']']))
  | noEntries {ws : List Char} (hws : Blanks ws) :
    Spells (.value (.map [])) ('\x7b' :: (ws ++ ['\x7d']))
  | table {entries : Entries} {ws cs : List Char} (hws : Blanks ws)
    (h : Spells (.inline [] entries) cs) :
    Spells (.value (.map (valuesOf entries))) ('\x7b' :: (ws ++ (cs ++ ['\x7d'])))
  | noItems {ws : List Char} (hws : Gap ws) : Spells (.items []) ws
  | lastItem {v : Value} {ws cs ws' : List Char} (hws : Gap ws) (hv : Spells (.value v) cs)
    (hws' : Gap ws') : Spells (.items [v]) (ws ++ (cs ++ ws'))
  | item {v : Value} {vs : List Value} {ws cs ws' ds : List Char} (hws : Gap ws)
    (hv : Spells (.value v) cs) (hws' : Gap ws') (hvs : Spells (.items vs) ds) :
    Spells (.items (v :: vs)) (ws ++ (cs ++ (ws' ++ ',' :: ds)))
  | lastEntry {key : Key} {v : Value} {entries entries' : Entries} {ks ws cs ws' : List Char}
    (hkey : SpellsKey key ks) (hws : Blanks ws) (hv : Spells (.value v) cs) (hws' : Blanks ws')
    (hassign : assign 0 key.path key.name v entries = some entries') :
    Spells (.inline entries entries') (ks ++ '=' :: (ws ++ (cs ++ ws')))
  | entry {key : Key} {v : Value} {entries entries' entries'' : Entries}
    {ks ws cs ws' ws'' ds : List Char} (hkey : SpellsKey key ks) (hws : Blanks ws)
    (hv : Spells (.value v) cs) (hws' : Blanks ws')
    (hassign : assign 0 key.path key.name v entries = some entries') (hws'' : Blanks ws'')
    (hmore : Spells (.inline entries' entries'') ds) :
    Spells (.inline entries entries'') (ks ++ '=' :: (ws ++ (cs ++ (ws' ++ ',' :: (ws'' ++ ds)))))

/-! ## 5. Statements and lines -/

/-- The characters are the statement. -/
inductive SpellsStatement : Statement → List Char → Prop
  | assign {key : Key} {v : Value} {ks ws cs : List Char} (hkey : SpellsKey key ks)
    (hws : Blanks ws) (hv : Spells (.value v) cs) :
    SpellsStatement (.assign key v) (ks ++ '=' :: (ws ++ cs))
  | declare {key : Key} {ws ks : List Char} (hws : Blanks ws) (hkey : SpellsKey key ks) :
    SpellsStatement (.declare key) ('[' :: (ws ++ (ks ++ [']'])))
  | append {key : Key} {ws ks : List Char} (hws : Blanks ws) (hkey : SpellsKey key ks) :
    SpellsStatement (.append key) ('[' :: '[' :: (ws ++ (ks ++ [']', ']'])))

/-- The characters are a line, with a statement or without one. -/
inductive SpellsLineOf : Option Statement → List Char → Prop
  | idle {cs : List Char} (h : LineEnd cs) : SpellsLineOf none cs
  | statement {s : Statement} {ws cs es : List Char} (hws : Blanks ws) (h : SpellsStatement s cs)
    (hend : LineEnd es) : SpellsLineOf (some s) (ws ++ (cs ++ es))

/-- **The grammar**: the characters are lines with these statements. -/
inductive SpellsScript : List Statement → List Char → Prop
  | last {s : Option Statement} {cs : List Char} (h : SpellsLineOf s cs) : SpellsScript s.toList cs
  | cons {s : Option Statement} {ss : List Statement} {cs ds : List Char} (h : SpellsLineOf s cs)
    (hmore : SpellsScript ss ds) : SpellsScript (s.toList ++ ss) (cs ++ '\n' :: ds)

/-! ## 6. Integers of too many digits -/

/-- The characters go on with a decimal number of which the whole part stands in front of them. -/
inductive NumberGoesOn : List Char → Prop
  | digit {c : Char} {cs : List Char} (hc : c.isDigit = true) : NumberGoesOn (c :: cs)
  | underscore {c : Char} {cs : List Char} (hc : c.isDigit = true) : NumberGoesOn ('_' :: c :: cs)
  | fraction {c : Char} {cs : List Char} (hc : c.isDigit = true) : NumberGoesOn ('.' :: c :: cs)
  | exponent {n : Int} {ds cs : List Char} (hds : SpellsExponent (some n) ds) :
    NumberGoesOn (ds ++ cs)

/-- The characters begin with an integer that has too many digits. -/
def LongInteger (cs : List Char) : Prop :=
  ∃ sign negative ds us rest, (sign, negative) ∈ signs ∧ SpellsWhole ds us ∧
    maxDigits < ds.length ∧ ¬ NumberGoesOn rest ∧ cs = sign ++ (us ++ rest)

/-- What is to come: a value, the items of an array, or the entries of an inline table that has some
already. -/
inductive Expected
  | value
  | items
  | inline (entries : Entries)

/-- The characters begin as the grammar says, up to an integer of too many digits. -/
inductive Overruns : Expected → List Char → Prop
  | integer {cs : List Char} (h : LongInteger cs) : Overruns .value cs
  | array {cs : List Char} (h : Overruns .items cs) : Overruns .value ('[' :: cs)
  | table {ws cs : List Char} (hws : Blanks ws) (h : Overruns (.inline []) cs) :
    Overruns .value ('\x7b' :: (ws ++ cs))
  | inItem {ws cs : List Char} (hws : Gap ws) (h : Overruns .value cs) : Overruns .items (ws ++ cs)
  | afterItem {v : Value} {ws cs ws' ds : List Char} (hws : Gap ws) (hv : Spells (.value v) cs)
    (hws' : Gap ws') (h : Overruns .items ds) : Overruns .items (ws ++ (cs ++ (ws' ++ ',' :: ds)))
  | inEntry {key : Key} {entries : Entries} {ks ws cs : List Char} (hkey : SpellsKey key ks)
    (hws : Blanks ws) (h : Overruns .value cs) :
    Overruns (.inline entries) (ks ++ '=' :: (ws ++ cs))
  | afterEntry {key : Key} {v : Value} {entries entries' : Entries}
    {ks ws cs ws' ws'' ds : List Char}
    (hkey : SpellsKey key ks) (hws : Blanks ws) (hv : Spells (.value v) cs) (hws' : Blanks ws')
    (hassign : assign 0 key.path key.name v entries = some entries') (hws'' : Blanks ws'')
    (h : Overruns (.inline entries') ds) :
    Overruns (.inline entries) (ks ++ '=' :: (ws ++ (cs ++ (ws' ++ ',' :: (ws'' ++ ds)))))

/-- The characters are lines with these statements, up to an integer of too many digits in the value
of the next one. -/
inductive Overlong : List Statement → List Char → Prop
  | here {key : Key} {ws ks ws' cs : List Char} (hws : Blanks ws) (hkey : SpellsKey key ks)
    (hws' : Blanks ws') (h : Overruns .value cs) :
    Overlong [] (ws ++ (ks ++ '=' :: (ws' ++ cs)))
  | later {s : Option Statement} {ss : List Statement} {cs ds : List Char} (h : SpellsLineOf s cs)
    (hmore : Overlong ss ds) : Overlong (s.toList ++ ss) (cs ++ '\n' :: ds)

end Ancestry.Toml
