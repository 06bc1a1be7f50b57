import Ancestry.Calendar
import Ancestry.Number.Binary64

/-!
# Values

The values that callers hand in and that documents decode to.  Maps keep the order in which their
keys first came; a key that comes again keeps its place and takes the later value.  Two keys are
the same when they are equal as numbers, texts, bytes or tuples, so `1`, `1.0` and `true` are one
key.
-/

namespace Ancestry

/-- A value.  A `branded` text is equal to the plain text but of a kind of its own. -/
inductive Value
  | null
  | bool (b : Bool)
  | int (n : Int)
  | float (x : Binary64)
  | text (s : String)
  | branded (s : String)
  | bytes (b : List UInt8)
  | moment (m : Moment)
  | list (items : List Value)
  | tuple (items : List Value)
  | set (items : List Value)
  | map (entries : List (Value × Value))
  deriving Inhabited

namespace Value

/-- The word for the kind of a value in messages. -/
def kind : Value → String
  | .null => "NoneType"
  | .bool _ => "bool"
  | .int _ => "int"
  | .float _ => "float"
  | .text _ => "str"
  | .branded _ => "StrSub"
  | .bytes _ => "bytes"
  | .moment (.date _) => "date"
  | .moment (.time _) => "time"
  | .moment (.dateTime ..) => "datetime"
  | .list _ => "list"
  | .tuple _ => "tuple"
  | .set _ => "set"
  | .map _ => "dict"

/-- The text of a value that is one, branded or not. -/
def text? : Value → Option String
  | .text s => some s
  | .branded s => some s
  | _ => none

/-- The integer that a value counts as: truth counts as one and falsity as zero. -/
def number? : Value → Option Int
  | .bool b => some (if b then 1 else 0)
  | .int n => some n
  | _ => none

/-- Whether a value says nothing: the null value, falsity, zero, and a text or a collection that is
empty. -/
def saysNothing : Value → Bool
  | .null => true
  | .bool b => !b
  | .int n => n == 0
  | .float x => x.isInt 0
  | .text s => s.isEmpty
  | .branded s => s.isEmpty
  | .bytes b => b.isEmpty
  | .moment _ => false
  | .list xs => xs.isEmpty
  | .tuple xs => xs.isEmpty
  | .set xs => xs.isEmpty
  | .map es => es.isEmpty

mutual
/-- Whether two values are the same key of a map. -/
def sameKey : Value → Value → Bool
  | .null, w => (w matches .null)
  | .bool b, w =>
    match w with
    | .float x => x.isInt (if b then 1 else 0)
    | w => w.number? == some (if b then 1 else 0)
  | .int n, w =>
    match w with
    | .float x => x.isInt n
    | w => w.number? == some n
  | .float x, w =>
    match w with
    | .float y => x.numEq y
    | w => match w.number? with
      | some n => x.isInt n
      | none => false
  | .text s, w => w.text? == some s
  | .branded s, w => w.text? == some s
  | .bytes b, w =>
    match w with
    | .bytes c => b == c
    | _ => false
  | .moment m, w =>
    match w with
    | .moment n => m == n
    | _ => false
  | .tuple xs, w =>
    match w with
    | .tuple ys => sameKeys xs ys
    | _ => false
  | .list _, _ => false
  | .set _, _ => false
  | .map _, _ => false
/-- Whether two lists of values are the same keys in the same order. -/
def sameKeys : List Value → List Value → Bool
  | [], ys => ys.isEmpty
  | x :: xs, ys =>
    match ys with
    | [] => false
    | y :: ys => sameKey x y && sameKeys xs ys
end

mutual
/-- The part of a value because of which it cannot be a key, if there is one: a list, a set or a
map, also within tuples. -/
def unfitKey? : Value → Option Value
  | .list xs => some (.list xs)
  | .set xs => some (.set xs)
  | .map es => some (.map es)
  | .tuple xs => unfitKeyIn? xs
  | _ => none
/-- The first part of the values of a list because of which one of them cannot be a key. -/
def unfitKeyIn? : List Value → Option Value
  | [] => none
  | x :: xs => (unfitKey? x).orElse fun _ => unfitKeyIn? xs
end

/-- Entries with the value `v` under the key `k`: in its place if the key is there, and at the end
otherwise. -/
def put (entries : List (Value × Value)) (k v : Value) : List (Value × Value) :=
  match entries with
  | [] => [(k, v)]
  | (k', v') :: rest => if sameKey k' k then (k', v) :: rest else (k', v') :: put rest k v

/-- The map that pairs make when they are put in one after the other. -/
def ofPairs (pairs : List (Value × Value)) : Value :=
  .map (pairs.foldl (fun es p => put es p.1 p.2) [])

/-- The set of the values of a list. -/
def ofMembers (items : List Value) : Value :=
  .set (items.foldl (fun xs x => if xs.any (sameKey · x) then xs else xs ++ [x]) [])

/-- The value under a text key, in entries. -/
def find? (entries : List (Value × Value)) (key : String) : Option Value :=
  match entries with
  | [] => none
  | (k, v) :: rest => if k.text? = some key then some v else find? rest key

end Value
end Ancestry
