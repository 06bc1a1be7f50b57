import Std.Data.ExtTreeSet

/-!
# Type names and sets of them

A type is known by its name in internal form, `a/b/C`.  Sources may also write `a.b.C`; the two
forms differ in the separator only, and `internalName` brings the second to the first.

Sets of type names are kept in ascending order of their characters, so a set has one listing and
two sets with the same members are equal.
-/

namespace Ancestry

/-- The name of a type.  Any text may occur as one. -/
abbrev TypeName := String

/-- A finite set of type names, listed in ascending order of code points. -/
abbrev TypeSet := Std.ExtTreeSet TypeName compare

namespace TypeSet

/-- The members of a list, as a set. -/
def ofNames (names : List TypeName) : TypeSet :=
  names.foldl (fun s t => s.insert t) ∅

theorem mem_foldl_insert (names : List TypeName) (s : TypeSet) (t : TypeName) :
    t ∈ names.foldl (fun s t => s.insert t) s ↔ t ∈ names ∨ t ∈ s := by
  induction names generalizing s with
  | nil => simp
  | cons n names ih => grind

/-- The set of a list has the members of the list. -/
@[simp] theorem mem_ofNames {names : List TypeName} {t : TypeName} :
    t ∈ ofNames names ↔ t ∈ names := by
  simp [ofNames, mem_foldl_insert]

end TypeSet

/-- The internal form of a name: every dot becomes a slash, and nothing else changes. -/
def internalName (name : String) : TypeName :=
  String.ofList (name.toList.map fun c => if c = '.' then '/' else c)

/-- A name in internal form has no dot left. -/
theorem dot_notMem_internalName (name : String) : '.' ∉ (internalName name).toList := by
  simp only [internalName, String.toList_ofList, List.mem_map, not_exists, not_and]
  intro c _
  split <;> simp_all

/-- A name in internal form is its own internal form. -/
theorem internalName_internalName (name : String) :
    internalName (internalName name) = internalName name := by
  simp only [internalName, String.toList_ofList, List.map_map]
  congr 1
  apply List.map_congr_left
  intro c _
  by_cases h : c = '.' <;> simp [h]

end Ancestry
