import Ancestry.Value.Written

/-!
# The shape of a hierarchy document

A hierarchy document is an object with one field that counts, an object whose values are arrays of
names.  A value is checked against this shape as a whole: every place at which it differs is
reported, in the order of the value.

Texts, sets and tuples come in more kinds than one when a value does not stem from a document:
bytes count as the text that they encode, and a tuple or a set counts as an array.
-/

namespace Ancestry.Document

/-- The two kinds of hierarchy documents. -/
inductive Schema
  /-- The direct supertypes of scanned types. -/
  | supertypes
  /-- The ancestors of the types of the core system. -/
  | coreIndex
  deriving DecidableEq, Repr

/-- The field that counts. -/
def Schema.field : Schema → String
  | .supertypes => "direct_supertypes"
  | .coreIndex => "ancestors"

/-- The name of a schema in messages. -/
def Schema.title : Schema → String
  | .supertypes => "DirectSupertypesPayloadDTO"
  | .coreIndex => "CoreIndexPayloadDTO"

/-- What a member of an entry is called when it is refused. -/
def Schema.memberField : Schema → String
  | .supertypes => "supertype"
  | .coreIndex => "ancestor"

/-- How a value differs from the shape. -/
inductive Flaw
  | notDocument (schema : Schema)
  | missing
  | notObject
  | notArray
  | notText
  | notUnicode
  deriving DecidableEq, Repr

/-- The short name of a flaw. -/
def Flaw.name : Flaw → String
  | .notDocument _ => "model_type"
  | .missing => "missing"
  | .notObject => "dict_type"
  | .notArray => "list_type"
  | .notText => "string_type"
  | .notUnicode => "string_unicode"

/-- The wording of a flaw. -/
def Flaw.message : Flaw → String
  | .notDocument schema => "Input should be a valid dictionary or instance of " ++ schema.title
  | .missing => "Field required"
  | .notObject => "Input should be a valid dictionary"
  | .notArray => "Input should be a valid list"
  | .notText => "Input should be a valid string"
  | .notUnicode => "Input should be a valid string, unable to parse raw data as a unicode string"

/-- A step on the way to a place in a value. -/
inductive Place
  | name (s : String)
  | index (n : Int)
  deriving DecidableEq, Repr

/-- A flaw and the place where it is, from the outside in. -/
structure Complaint where
  flaw : Flaw
  place : List Place
  deriving DecidableEq, Repr

/-- Whether a number fits into 64 bits with a sign. -/
def isShortNumber (n : Int) : Bool := -9223372036854775808 ≤ n && n < 9223372036854775808

/-- The step to the entry under a key.  A number of at most 64 bits stays a number. -/
def Place.ofKey (key : Value) : Place :=
  match key.text?, key.number? with
  | some s, _ => .name s
  | none, some n => if isShortNumber n then .index n else .name key.written
  | none, none => .name key.written

/-- The text that a value is, or the flaw that keeps it from being one. -/
def checkText : Value → Except Flaw String
  | .text s => .ok s
  | .branded s => .ok s
  | .bytes b =>
    match String.fromUTF8? ⟨b.toArray⟩ with
    | some s => .ok s
    | none => .error .notUnicode
  | _ => .error .notText

/-- The items of a value that counts as an array. -/
def items? : Value → Option (List Value)
  | .list xs => some xs
  | .tuple xs => some xs
  | .set xs => some xs
  | _ => none

/-- What a check finds: the part of the answer, and the complaints. -/
structure Findings (α : Type) where
  found : α
  complaints : List Complaint

/-- The texts of the items of an array at a place, where the first item has the index `n`. -/
def checkItems (place : List Place) (n : Nat) : List Value → Findings (List String)
  | [] => ⟨[], []⟩
  | x :: xs =>
    let rest := checkItems place (n + 1) xs
    match checkText x with
    | .ok s => ⟨s :: rest.found, rest.complaints⟩
    | .error flaw => ⟨rest.found, ⟨flaw, place ++ [.index n]⟩ :: rest.complaints⟩

/-- The texts of an array at a place. -/
def checkArray (place : List Place) (v : Value) : Findings (List String) :=
  match items? v with
  | some xs => checkItems place 0 xs
  | none => ⟨[], [⟨.notArray, place⟩]⟩

/-- Entries under texts, with `names` under the key `key`: in its place if the key is there. -/
def putNames (entries : List (String × List String)) (key : String) (names : List String) :
    List (String × List String) :=
  match entries with
  | [] => [(key, names)]
  | (k, ns) :: rest =>
    if k = key then (k, names) :: rest else (k, ns) :: putNames rest key names

/-- The entries of an object at a place, each a text and the texts of an array.  A key that is no
text is reported, and its value is checked all the same. -/
def checkEntries (place : List Place) (entries : List (Value × Value)) :
    Findings (List (String × List String)) :=
  entries.foldl (fun sofar (key, v) =>
    let here := place ++ [.ofKey key]
    let names := checkArray here v
    match checkText key with
    | .ok s => ⟨putNames sofar.found s names.found, sofar.complaints ++ names.complaints⟩
    | .error flaw =>
      ⟨sofar.found, sofar.complaints ++ ⟨flaw, here ++ [.name "[key]"]⟩ :: names.complaints⟩)
    ⟨[], []⟩

/-- The entries of a hierarchy document, or every complaint about a value that is none. -/
def check (schema : Schema) (v : Value) : Except (List Complaint) (List (String × List String)) :=
  match v with
  | .map fields =>
    match Value.find? fields schema.field with
    | none => .error [⟨.missing, [.name schema.field]⟩]
    | some (.map entries) =>
      let findings := checkEntries [.name schema.field] entries
      if findings.complaints.isEmpty then .ok findings.found else .error findings.complaints
    | some _ => .error [⟨.notObject, [.name schema.field]⟩]
  | _ => .error [⟨.notDocument schema, []⟩]

end Ancestry.Document
