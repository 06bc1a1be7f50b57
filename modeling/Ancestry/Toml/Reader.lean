import Ancestry.Toml.Scalar
import Ancestry.Toml.Table

/-!
# Reading configuration files

A configuration file is a sequence of statements, each on a line of its own.  `script` is the
grammar: the statements up to the first place that does not follow it.  What the statements mean
together, and which of them contradict each other, is said by `build`; `read` puts the two
together.
-/

namespace Ancestry.Toml

open Text (after?)

/-! ## Keys, white space and comments -/

/-- Whether a character can stand in a key without quotes. -/
def isBareKeyChar (c : Char) : Bool := c.isAlphanum || c = '_' || c = '-'

/-- The text without the blanks in front. -/
def skipBlanks (cs : List Char) : List Char := cs.dropWhile isBlank

/-- The text after the comment that comes next, if one does.  The line break does not belong to
the comment. -/
def skipComment (cs : List Char) : Except ReadError (List Char) :=
  match cs with
  | '#' :: rest =>
    let comment := rest.takeWhile (· != '\n')
    if comment.any isControl then .error .malformed
    else .ok (rest.dropWhile (· != '\n'))
  | cs => .ok cs

/-- The text without the white space, line breaks and comments in front. -/
def skipLines : Nat → List Char → Except ReadError (List Char)
  | 0, cs => .ok cs
  | fuel + 1, cs =>
    match cs.dropWhile isSpace with
    | '#' :: rest => do skipLines fuel (← skipComment ('#' :: rest))
    | rest => .ok rest

/-- One of the names of a key. -/
def readName (cs : List Char) : Reading String :=
  match cs with
  | [] => .error .malformed
  | c :: rest =>
    if c = '\x22' || c = '\x27' then
      (readShort c rest).map fun (text, rest) => (String.ofList text, rest)
    else if isBareKeyChar c then
      .ok (String.ofList (cs.takeWhile isBareKeyChar), cs.dropWhile isBareKeyChar)
    else .error .malformed

/-- The names of a key, with points between them, and the blanks that follow. -/
def readNames : Nat → List Char → Except ReadError (List String × String × List Char)
  | 0, _ => .error .malformed
  | fuel + 1, cs => do
    let (name, rest) ← readName cs
    match skipBlanks rest with
    | '.' :: rest =>
      let (path, last, rest) ← readNames fuel (skipBlanks rest)
      return (name :: path, last, rest)
    | rest => return ([], name, rest)

/-- A key and the blanks that follow. -/
def readKey (cs : List Char) : Reading Key :=
  (readNames cs.length cs).map fun (path, name, rest) => (⟨path, name⟩, rest)

/-! ## Values -/

mutual
/-- A value. -/
def readValue : Nat → List Char → Except ReadError (Value × List Char)
  | 0, _ => .error .malformed
  | _, [] => .error .malformed
  | fuel + 1, c :: rest => do
    if c = '\x22' || c = '\x27' then
      (readText c rest).map fun (text, rest) => (.text text, rest)
    else if c = '[' then
      (readItems fuel rest).map fun (items, rest) => (.list items, rest)
    else if c = '\x7b' then
      match skipBlanks rest with
      | '\x7d' :: rest => return (.map [], rest)
      | rest =>
        (readInline fuel [] rest).map fun (entries, rest) => (.map (valuesOf entries), rest)
    else readScalar (c :: rest)
/-- The rest of an array, from where an item or the end may come. -/
def readItems : Nat → List Char → Except ReadError (List Value × List Char)
  | 0, _ => .error .malformed
  | fuel + 1, cs => do
    match ← skipLines (cs.length + 1) cs with
    | ']' :: rest => return ([], rest)
    | rest =>
      let (v, rest) ← readValue fuel rest
      match ← skipLines (rest.length + 1) rest with
      | ']' :: rest => return ([v], rest)
      | ',' :: rest =>
        let (vs, rest) ← readItems fuel rest
        return (v :: vs, rest)
      | _ => .error .malformed
/-- The rest of an inline table that has some entries already, from where a key comes. -/
def readInline : Nat → Entries → List Char → Except ReadError (Entries × List Char)
  | 0, _, _ => .error .malformed
  | fuel + 1, entries, cs => do
    let (key, rest) ← readKey cs
    match after? ['='] rest with
    | none => .error .malformed
    | some rest =>
      let (v, rest) ← readValue fuel (skipBlanks rest)
      match assign 0 key.path key.name v entries with
      | none => .error .malformed
      | some entries =>
        match skipBlanks rest with
        | '\x7d' :: rest => return (entries, rest)
        | ',' :: rest => readInline fuel entries (skipBlanks rest)
        | _ => .error .malformed
end

/-- No value is nothing. -/
theorem readValue_nil : ∀ fuel, readValue fuel [] = .error .malformed
  | 0 => by rw [readValue]
  | fuel + 1 => by rw [readValue]; exact nofun

/-! ## Statements -/

/-- A statement. -/
def readStatement (cs : List Char) : Except ReadError (Statement × List Char) := do
  match cs with
  | '[' :: '[' :: rest =>
    let (key, rest) ← readKey (skipBlanks rest)
    match after? [']', ']'] rest with
    | some rest => return (.append key, rest)
    | none => .error .malformed
  | '[' :: rest =>
    let (key, rest) ← readKey (skipBlanks rest)
    match after? [']'] rest with
    | some rest => return (.declare key, rest)
    | none => .error .malformed
  | cs =>
    let (key, rest) ← readKey cs
    match after? ['='] rest with
    | some rest =>
      let (v, rest) ← readValue (2 * rest.length + 2) (skipBlanks rest)
      return (.assign key v, rest)
    | none => .error .malformed

/-- The text after the end of a line, in front of which there may be blanks and a comment. -/
def endLine (cs : List Char) : Except ReadError (List Char) := do
  match ← skipComment (skipBlanks cs) with
  | [] => return []
  | '\n' :: rest => return rest
  | _ => .error .malformed

/-- Whether a line holds no statement. -/
def isIdleLine (cs : List Char) : Bool :=
  match cs with
  | [] => true
  | c :: _ => c = '\n' || c = '#'

/-- The statements of a file up to the first place that does not follow the grammar, and the error
that is there. -/
structure Script where
  statements : List Statement
  error : Option ReadError

/-- The script with a statement in front. -/
def Script.cons (s : Statement) (script : Script) : Script :=
  { script with statements := s :: script.statements }

/-- The script of a text that begins with a line. -/
def readScript : Nat → List Char → Script
  | 0, _ => ⟨[], some .malformed⟩
  | _, [] => ⟨[], none⟩
  | fuel + 1, cs =>
    let line := skipBlanks cs
    if isIdleLine line then
      match endLine line with
      | .error e => ⟨[], some e⟩
      | .ok rest => readScript fuel rest
    else
      match readStatement line with
      | .error e => ⟨[], some e⟩
      | .ok (statement, rest) =>
        match endLine rest with
        | .error e => ⟨[statement], some e⟩
        | .ok rest => (readScript fuel rest).cons statement

/-- The script of a text. -/
def script (text : String) : Script :=
  readScript (text.toList.length + 1) text.toList

/-- The table that a text describes.  A statement that cannot be carried out is an error where it
stands, before any place behind it. -/
def read (text : String) : Except ReadError (List (Value × Value)) :=
  let script := script text
  match build script.statements with
  | none => .error .malformed
  | some entries =>
    match script.error with
    | some e => .error e
    | none => .ok entries

end Ancestry.Toml
