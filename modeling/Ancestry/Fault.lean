import Ancestry.Value.Written

/-!
# Refused input

Input is refused for one of two reasons: a value breaks a rule that this library states itself (a
`Violation`, which carries the values at fault under their names), or it is not of a kind on which
the operation asked for makes sense.
-/

namespace Ancestry

/-- A broken rule: what is wrong, which is a text as a rule, and the values that show it, by
name. -/
structure Violation where
  reason : Value
  details : List (String × Value)

/-- Details in which the value `v` stands under `name`: in its place if the name is there, and at
the end otherwise. -/
def putDetail (details : List (String × Value)) (name : String) (v : Value) :
    List (String × Value) :=
  match details with
  | [] => [(name, v)]
  | (n, w) :: rest => if n = name then (n, v) :: rest else (n, w) :: putDetail rest name v

/-- A violation with the given details, of which later ones replace earlier ones of the same
name. -/
def Violation.ofDetails (reason : Value) (details : List (String × Value)) : Violation :=
  ⟨reason, details.foldl (fun ds d => putDetail ds d.1 d.2) []⟩

/-- The wording of a violation. -/
def Violation.message (v : Violation) : String := v.reason.label

/-- The details with their values written out. -/
def Violation.writtenDetails (v : Violation) : List (String × String) :=
  v.details.map fun d => (d.1, d.2.written)

/-- Why input is refused. -/
inductive Fault
  /-- A rule of this library is broken. -/
  | violation (v : Violation)
  /-- Entries are asked of a value that is not a map. -/
  | noEntries (v : Value)
  /-- Members are asked of a value that has none. -/
  | noMembers (v : Value)
  /-- A value is looked up that cannot be a key. -/
  | notKey (v : Value)
  /-- The beginning of a value is asked for that is not a text. -/
  | noBeginning (v : Value)
  /-- A string of bytes is compared with the beginning of a text. -/
  | bytesBeginning
  /-- A detail of a violation has the name under which the reason itself is handed over. -/
  | reservedName
  /-- In a collection that is to be a map, the item at a place has no members. -/
  | itemWithoutMembers (place : Nat)
  /-- In a collection that is to be a map, the item at a place does not have two members. -/
  | itemLength (place length : Nat)

/-- The wording of a fault. -/
def Fault.message : Fault → String
  | .violation v => v.message
  | .noEntries v => "'" ++ v.kind ++ "' object has no attribute 'items'"
  | .noMembers v => "'" ++ v.kind ++ "' object is not iterable"
  | .notKey v => "unhashable type: '" ++ v.kind ++ "'"
  | .noBeginning v => "'" ++ v.kind ++ "' object has no attribute 'startswith'"
  | .bytesBeginning => "startswith first arg must be bytes or a tuple of bytes, not str"
  | .reservedName => "never() got multiple values for argument 'reason'"
  | .itemWithoutMembers place =>
    "cannot convert dictionary update sequence element #" ++ toString place ++ " to a sequence"
  | .itemLength place length =>
    "dictionary update sequence element #" ++ toString place ++ " has length " ++ toString length
      ++ "; 2 is required"

/-- The name under which the reason of a violation is handed over among its details. -/
def reasonName : String := "reason"

/-- The fault of breaking a rule. -/
def Fault.rule (reason : String) (details : List (String × Value)) : Fault :=
  if details.any (·.1 == reasonName) then .reservedName
  else .violation (.ofDetails (.text reason) details)

/-- The fault of reaching a point that no valid input reaches.  The reason is handed over by itself
or as the last detail of its name, but not in both ways; where it says nothing, another one is put
in its place. -/
def Fault.unreachable (reason : Option Value) (details : List (String × Value)) : Fault :=
  let others := details.filter (·.1 != reasonName)
  match reason, details.reverse.lookup reasonName with
  | some _, some _ => .reservedName
  | given, found =>
    let reason := (given.or found).getD .null
    .violation (.ofDetails (if reason.saysNothing then .text "never() marker reached" else reason)
      others)

end Ancestry
