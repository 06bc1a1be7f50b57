import Ancestry.Fault
import Ancestry.Text.Blank
import Ancestry.TypeName

/-!
# The core namespace

Which type names belong to the core system, whose ancestors are known beforehand.  Membership is a
test on the beginning of the name in internal form and on nothing else: the namespace `a/b` has the
member `a/bc`.
-/

namespace Ancestry

/-- The namespace of all names that begin with `stem`. -/
structure CoreNamespace where
  stem : String
  deriving DecidableEq

namespace CoreNamespace

/-- The namespace taken where none is given. -/
def standard : CoreNamespace := ⟨"org/gradle/"⟩

/-- Whether a type belongs to the core system. -/
def contains (space : CoreNamespace) (t : TypeName) : Bool :=
  space.stem.toList.isPrefixOf t.toList

theorem contains_iff {space : CoreNamespace} {t : TypeName} :
    space.contains t = true ↔ ∃ rest, t.toList = space.stem.toList ++ rest := by
  simp only [contains, List.isPrefixOf_iff_prefix, List.IsPrefix]
  exact exists_congr fun _ => eq_comm

/-- The namespace that a value describes: a text that is more than white space, without the white
space around it and in internal form. -/
def ofValue (v : Value) : Except Fault CoreNamespace :=
  let refused := .error (.rule "invalid core namespace prefix" [("prefix", v)])
  match v with
  | .text s =>
    let stem := Text.trim s
    if stem.isEmpty then refused else .ok ⟨internalName stem⟩
  | _ => refused

/-- Whether a value is the name of a core type.  Only plain texts are names. -/
def hasMember (space : CoreNamespace) : Value → Bool
  | .text s => space.contains s
  | _ => false

/-- The test of `contains` on a value, which fails on what has no beginning. -/
def containsValue (space : CoreNamespace) (v : Value) : Except Fault Bool :=
  match v.text? with
  | some s => .ok (space.contains s)
  | none =>
    match v with
    | .bytes _ => .error .bytesBeginning
    | v => .error (.noBeginning v)

end CoreNamespace
end Ancestry
