import Std.Data.ExtTreeMap
import Ancestry.TypeName

/-!
# The walk

A walk goes upward from a type through the supertype graph, depth first, and finds for each type
that it enters the core types above it.  The graph may have cycles: the types of a strongly
connected component share one set, which is known only when the walk leaves the component through
the type by which it entered.  `Walk` is what a walk keeps in mind: the numbers and low points of
the types entered, the stack of those whose component is not closed yet, and one frame for each
type whose supertypes are not all taken.

The functions here change this state and look at nothing outside it.
-/

namespace Ancestry.Closure

/-- A type that is being walked: the supertypes not yet taken, and what has come together so far. -/
structure Frame where
  type : TypeName
  pending : List TypeName
  collected : TypeSet

/-- The state of a walk.  `stack` and `frames` have the type entered last in front. -/
structure Walk where
  /-- The number of each type entered, counted from zero. -/
  order : Std.ExtTreeMap TypeName Nat compare := ∅
  /-- The least number known to be reachable from a type within the stack. -/
  low : Std.ExtTreeMap TypeName Nat compare := ∅
  /-- The types entered whose component is still open. -/
  stack : List TypeName := []
  /-- The members of `stack`. -/
  onStack : TypeSet := ∅
  /-- What the types of an open component that are walked to the end have collected. -/
  partials : Std.ExtTreeMap TypeName TypeSet compare := ∅
  /-- The sets of the types whose component is closed. -/
  finished : Std.ExtTreeMap TypeName TypeSet compare := ∅
  frames : List Frame := []

namespace Walk

/-- The walk before it has entered a type. -/
def empty : Walk := {}

/-- Enters a type: it gets the next number, goes onto the stack, and has a frame with the given
supertypes.  A core type begins with itself. -/
def enter (w : Walk) (t : TypeName) (isCore : Bool) (supertypes : List TypeName) : Walk :=
  { w with
    order := w.order.insert t w.order.size
    low := w.low.insert t w.order.size
    stack := t :: w.stack
    onStack := w.onStack.insert t
    frames := ⟨t, supertypes, if isCore then TypeSet.ofNames [t] else ∅⟩ :: w.frames }

/-- The number of a type. -/
def orderOf (w : Walk) (t : TypeName) : Nat := (w.order[t]?).getD 0

/-- The low point of a type. -/
def lowOf (w : Walk) (t : TypeName) : Nat := (w.low[t]?).getD 0

/-- Lowers the low point of a type to `n`, if it is higher. -/
def lower (w : Walk) (t : TypeName) (n : Nat) : Walk :=
  { w with low := w.low.insert t (min (w.lowOf t) n) }

/-- Takes the first pending supertype off the innermost frame. -/
def drop (w : Walk) : Walk :=
  match w.frames with
  | [] => w
  | f :: rest => { w with frames := { f with pending := f.pending.tail } :: rest }

/-- Adds a set to what the innermost frame has collected. -/
def collect (w : Walk) (set : TypeSet) : Walk :=
  match w.frames with
  | [] => w
  | f :: rest => { w with frames := { f with collected := f.collected ∪ set } :: rest }

/-- Hands a set and a low point on to the innermost frame. -/
def yield (w : Walk) (set : TypeSet) (low : Nat) : Walk :=
  match w.frames with
  | [] => w
  | f :: _ => (w.collect set).lower f.type low

/-- The types of the component that is closed at `root`: those on the stack down to it, in the
order in which they leave the stack. -/
def component (w : Walk) (root : TypeName) : List TypeName :=
  w.stack.takeWhile (· ≠ root) ++ [root]

/-- What the component closed at `root` has collected, where `collected` is the part of `root`. -/
def componentSet (w : Walk) (root : TypeName) (collected : TypeSet) : TypeSet :=
  (w.stack.takeWhile (· ≠ root)).foldl (fun set t => set ∪ (w.partials[t]?).getD ∅) collected

/-- Takes the component closed at `root` off the stack; all its types have the set `set`. -/
def closeComponent (w : Walk) (root : TypeName) (set : TypeSet) : Walk :=
  let members := w.component root
  { w with
    stack := (w.stack.dropWhile (· ≠ root)).tail
    onStack := members.foldl (fun s t => s.erase t) w.onStack
    partials := members.foldl (fun m t => m.erase t) w.partials
    finished := members.foldl (fun m t => m.insert t set) w.finished }

end Walk
end Ancestry.Closure
