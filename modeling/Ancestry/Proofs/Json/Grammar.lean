import Ancestry.Json.Reader
import Ancestry.Proofs.Text.Scanning

/-!
# The grammar of documents

What a document is, said without a reader: `Spells` relates a term to the characters by which it can
be written, one rule for each way of writing.  White space may stand around every token, a character
of a text may stand for itself or be written by a letter or by its number, and a number has a
fraction, an exponent, both or neither.  A document holds the value that its term stands for, if it
stands for one: half a character that stands alone is within the grammar (`IsBroken`).

An integer has at most `maxDigits` digits.  `Overruns` is about the texts that come to a longer one:
in front of it they follow the grammar, and what comes after it does not matter.

That the reader follows this grammar is shown for texts and numbers in `Tokens` and for values in
`Recognized`.
-/

namespace Ancestry.Json

open Text (IsDigits maxDigits natOfDigits signed signs)

/-! ## 1. The grammar -/

/-- White space between tokens, which may be none. -/
def Blank (cs : List Char) : Prop := ∀ c ∈ cs, isSpace c = true

/-- The characters stand, within a text, for the number of a character or of half a one. -/
inductive SpellsUnit : Nat → List Char → Prop
  | itself {c : Char} (hquote : c ≠ '\x22') (hslash : c ≠ '\\') (hcontrol : 0x20 ≤ c.toNat) :
    SpellsUnit c.toNat [c]
  | letter {e c : Char} (h : escaped? e = some c) : SpellsUnit c.toNat ['\\', e]
  | number {a b c d : Char} {n : Nat} (h : unit? a b c d = some n) :
    SpellsUnit n ['\\', 'u', a, b, c, d]

/-- The characters stand, within a text, for these numbers one after the other. -/
inductive SpellsUnits : List Nat → List Char → Prop
  | nil : SpellsUnits [] []
  | cons {n : Nat} {ns : List Nat} {cs ds : List Char} (hn : SpellsUnit n cs)
    (hns : SpellsUnits ns ds) : SpellsUnits (n :: ns) (cs ++ ds)

/-- The characters are a text in quotes. -/
def SpellsText (ns : List Nat) (cs : List Char) : Prop :=
  ∃ ds, SpellsUnits ns ds ∧ cs = '\x22' :: (ds ++ ['\x22'])

/-- The digits of a number in front of its fraction: they do not begin with a zero unless that is
all. -/
def IsWhole (ds : List Char) : Prop := ds = ['0'] ∨ IsDigits ds ∧ ds.head? ≠ some '0'

/-- The characters are a fraction with these digits, or none. -/
inductive SpellsFraction : List Char → List Char → Prop
  | none : SpellsFraction [] []
  | some {ds : List Char} (hds : IsDigits ds) : SpellsFraction ds ('.' :: ds)

/-- The characters are the exponent, or there is none. -/
inductive SpellsExponent : Option Int → List Char → Prop
  | none : SpellsExponent none []
  | some {e : Char} {sign ds : List Char} {negative : Bool} (he : e = 'e' ∨ e = 'E')
    (hsign : (sign, negative) ∈ signs) (hds : IsDigits ds) :
    SpellsExponent (some (signed negative (natOfDigits ds))) (e :: (sign ++ ds))

/-- The characters, after its sign, are the number. -/
inductive SpellsNumber (negative : Bool) : Term → List Char → Prop
  | integer {ds : List Char} (hds : IsWhole ds) (hfew : ds.length ≤ maxDigits) :
    SpellsNumber negative (.int (signed negative (natOfDigits ds))) ds
  | decimal {ds fs fraction exponent : List Char} {e : Option Int} (hds : IsWhole ds)
    (hfs : SpellsFraction fs fraction) (he : SpellsExponent e exponent)
    (hmore : fs ≠ [] ∨ e ≠ none) :
    SpellsNumber negative
      (.float (.ofDecimal negative (natOfDigits (ds ++ fs)) (e.getD 0 - fs.length)))
      (ds ++ (fraction ++ exponent))

/-- What a part of a document holds. -/
inductive Part
  | value (v : Term)
  /-- The items of a list, of which there is at least one. -/
  | items (xs : List Term)
  /-- The entries of an object, of which there is at least one. -/
  | entries (es : List (List Nat × Term))

/-- The characters are the key and the colon, up to where the value begins. -/
def SpellsKey (key : List Nat) (cs : List Char) : Prop :=
  ∃ text ws ws', SpellsText key text ∧ Blank ws ∧ Blank ws' ∧ cs = text ++ (ws ++ ':' :: ws')

/-- **The grammar**: the characters, between white space, are the value, or the items or the entries
between two brackets. -/
inductive Spells : Part → List Char → Prop
  | word {v : Term} {cs : List Char} (h : (cs, v) ∈ words) : Spells (.value v) cs
  | text {ns : List Nat} {cs : List Char} (h : SpellsText ns cs) : Spells (.value (.text ns)) cs
  | number {v : Term} {cs : List Char} (h : SpellsNumber false v cs) : Spells (.value v) cs
  | negative {v : Term} {cs : List Char} (h : SpellsNumber true v cs) :
    Spells (.value v) ('-' :: cs)
  | noItems {ws : List Char} (hws : Blank ws) : Spells (.value (.list [])) ('[' :: (ws ++ [']']))
  | list {xs : List Term} {ws cs : List Char} (hws : Blank ws) (h : Spells (.items xs) cs) :
    Spells (.value (.list xs)) ('[' :: (ws ++ (cs ++ [']'])))
  | noEntries {ws : List Char} (hws : Blank ws) :
    Spells (.value (.map [])) ('\x7b' :: (ws ++ ['\x7d']))
  | map {es : List (List Nat × Term)} {ws cs : List Char} (hws : Blank ws)
    (h : Spells (.entries es) cs) :
    Spells (.value (.map es)) ('\x7b' :: (ws ++ (cs ++ ['\x7d'])))
  | lastItem {x : Term} {cs ws : List Char} (hx : Spells (.value x) cs) (hws : Blank ws) :
    Spells (.items [x]) (cs ++ ws)
  | item {x : Term} {xs : List Term} {cs ws ws' ds : List Char} (hx : Spells (.value x) cs)
    (hws : Blank ws) (hws' : Blank ws') (hxs : Spells (.items xs) ds) :
    Spells (.items (x :: xs)) (cs ++ (ws ++ ',' :: (ws' ++ ds)))
  | lastEntry {key : List Nat} {v : Term} {ks cs ws : List Char} (hkey : SpellsKey key ks)
    (hv : Spells (.value v) cs) (hws : Blank ws) :
    Spells (.entries [(key, v)]) (ks ++ (cs ++ ws))
  | entry {key : List Nat} {v : Term} {es : List (List Nat × Term)} {ks cs ws ws' ds : List Char}
    (hkey : SpellsKey key ks) (hv : Spells (.value v) cs) (hws : Blank ws) (hws' : Blank ws')
    (hes : Spells (.entries es) ds) :
    Spells (.entries ((key, v) :: es)) (ks ++ (cs ++ (ws ++ ',' :: (ws' ++ ds))))

/-- The characters are a document. -/
def SpellsTerm (term : Term) (cs : List Char) : Prop :=
  ∃ ws ds ws', Blank ws ∧ Spells (.value term) ds ∧ Blank ws' ∧ cs = ws ++ (ds ++ ws')

/-- The characters are a document that holds the value. -/
def SpellsDocument (v : Value) (cs : List Char) : Prop :=
  ∃ term, SpellsTerm term cs ∧ term.value? = some v

/-- The characters are a document with half a character in it that stands alone. -/
def IsBroken (cs : List Char) : Prop := ∃ term, SpellsTerm term cs ∧ term.value? = none

/-! ## 2. Integers of too many digits -/

/-- The characters go on with a number of which the whole part stands in front of them. -/
inductive GoesOn : List Char → Prop
  | digit {c : Char} {cs : List Char} (hc : c.isDigit = true) : GoesOn (c :: cs)
  | fraction {ds cs : List Char} (hds : IsDigits ds) : GoesOn ('.' :: (ds ++ cs))
  | exponent {n : Int} {ds cs : List Char} (hds : SpellsExponent (some n) ds) : GoesOn (ds ++ cs)

/-- The characters begin with an integer, after its sign, that has too many digits. -/
def LongInteger (cs : List Char) : Prop :=
  ∃ ds rest, IsWhole ds ∧ maxDigits < ds.length ∧ ¬ GoesOn rest ∧ cs = ds ++ rest

/-- What is to come: a value, the items of a list or the entries of an object. -/
inductive Expected
  | value
  | items
  | entries

/-- The characters begin as the grammar says, up to an integer of too many digits. -/
inductive Overruns : Expected → List Char → Prop
  | integer {cs : List Char} (h : LongInteger cs) : Overruns .value cs
  | negative {cs : List Char} (h : LongInteger cs) : Overruns .value ('-' :: cs)
  | list {ws cs : List Char} (hws : Blank ws) (h : Overruns .items cs) :
    Overruns .value ('[' :: (ws ++ cs))
  | map {ws cs : List Char} (hws : Blank ws) (h : Overruns .entries cs) :
    Overruns .value ('\x7b' :: (ws ++ cs))
  | inItem {cs : List Char} (h : Overruns .value cs) : Overruns .items cs
  | afterItem {x : Term} {cs ws ws' ds : List Char} (hx : Spells (.value x) cs) (hws : Blank ws)
    (hws' : Blank ws') (h : Overruns .items ds) : Overruns .items (cs ++ (ws ++ ',' :: (ws' ++ ds)))
  | inEntry {key : List Nat} {ks cs : List Char} (hkey : SpellsKey key ks)
    (h : Overruns .value cs) : Overruns .entries (ks ++ cs)
  | afterEntry {key : List Nat} {v : Term} {ks cs ws ws' ds : List Char} (hkey : SpellsKey key ks)
    (hv : Spells (.value v) cs) (hws : Blank ws) (hws' : Blank ws') (h : Overruns .entries ds) :
    Overruns .entries (ks ++ (cs ++ (ws ++ ',' :: (ws' ++ ds))))

/-- The characters begin as a document does, up to an integer of too many digits. -/
def Overlong (cs : List Char) : Prop :=
  ∃ ws ds, Blank ws ∧ Overruns .value ds ∧ cs = ws ++ ds

end Ancestry.Json
