import Ancestry.Fault

/-!
# Members of values

The members of collections, and the maps that collections of pairs make.
-/

namespace Ancestry.Value

/-- The members of a value that has some: the items of a list, a tuple or a set, the keys of a map,
the characters of a text, the numbers of a string of bytes. -/
def members : Value → Except Fault (List Value)
  | .list xs => .ok xs
  | .tuple xs => .ok xs
  | .set xs => .ok xs
  | .map es => .ok (es.map (·.1))
  | .text s => .ok (s.toList.map fun c => .text (String.singleton c))
  | .branded s => .ok (s.toList.map fun c => .text (String.singleton c))
  | .bytes b => .ok (b.map fun x => .int x.toNat)
  | v => .error (.noMembers v)

/-- The pair that an item makes, which is at a place of a collection: a key and a value. -/
def pair (place : Nat) (item : Value) : Except Fault (Value × Value) :=
  match item.members with
  | .error _ => .error (.itemWithoutMembers place)
  | .ok [k, v] =>
    match k.unfitKey? with
    | some part => .error (.notKey part)
    | none => .ok (k, v)
  | .ok members => .error (.itemLength place members.length)

/-- The entries of a map. -/
def entries : Value → Except Fault (List (Value × Value))
  | .map es => .ok es
  | v => .error (.noEntries v)

/-- The entries of the map that a value makes: its own, or those that its items make when they are
put in one after the other. -/
def toEntries : Value → Except Fault (List (Value × Value))
  | .map es => .ok es
  | v => do
    let pairs ← (← v.members).zipIdx.mapM fun (item, place) => pair place item
    return pairs.foldl (fun es p => put es p.1 p.2) []

end Ancestry.Value
