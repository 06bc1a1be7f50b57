import Std.Data.ExtTreeMap
import Ancestry.TypeName

/-!
# The memo

The sets found by earlier walks, by type, and how often the memo was asked and written to.  Entries
are never removed.
-/

namespace Ancestry

/-- The sets found so far, with the number of lookups that found one, of those that did not, and of
writes. -/
structure Memo where
  entries : Std.ExtTreeMap TypeName TypeSet compare := ∅
  hits : Nat := 0
  misses : Nat := 0
  stores : Nat := 0

namespace Memo

/-- The memo before the first query. -/
def empty : Memo := {}

/-- The set under a type, without counting the lookup. -/
def peek? (memo : Memo) (t : TypeName) : Option TypeSet := memo.entries[t]?

/-- Looks a type up and counts the lookup. -/
def get (memo : Memo) (t : TypeName) : Option TypeSet × Memo :=
  match memo.peek? t with
  | some set => (some set, { memo with hits := memo.hits + 1 })
  | none => (none, { memo with misses := memo.misses + 1 })

/-- Writes the set of a type and counts the write. -/
def store (memo : Memo) (t : TypeName) (set : TypeSet) : Memo :=
  { memo with entries := memo.entries.insert t set, stores := memo.stores + 1 }

/-- The number of types in the memo. -/
def size (memo : Memo) : Nat := memo.entries.size

/-- The entries, in ascending order of their types. -/
def toList (memo : Memo) : List (TypeName × TypeSet) := memo.entries.toList

@[simp] theorem get_fst (memo : Memo) (t : TypeName) : (memo.get t).1 = memo.peek? t := by
  unfold get; split <;> simp_all

@[simp] theorem entries_get (memo : Memo) (t : TypeName) :
    (memo.get t).2.entries = memo.entries := by
  unfold get; split <;> rfl

@[simp] theorem peek?_get (memo : Memo) (t u : TypeName) :
    (memo.get t).2.peek? u = memo.peek? u := by
  simp [peek?]

theorem peek?_store (memo : Memo) (t u : TypeName) (set : TypeSet) :
    (memo.store t set).peek? u = if t = u then some set else memo.peek? u := by
  simp [store, peek?, Std.ExtTreeMap.getElem?_insert]

end Memo
end Ancestry
