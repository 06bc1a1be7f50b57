import Ancestry.Closure.Query

/-!
# Building a layer

A layer is built from an index, or from a value that describes one, and from what is to be told of
events.  A listener that cannot be told anything is refused before the index is looked at.
-/

namespace Ancestry.Closure

/-- The supertypes that a layer is given. -/
inductive Supertypes
  | index (table : TypeTable)
  | described (v : Value)

/-- Who is to hear of the events of a layer: someone, nobody, or a value that cannot hear. -/
inductive Audience
  | listener
  | nobody
  | unfit (v : Value)

/-- The index of direct supertypes that a value describes. -/
def indexOfValue (v : Value) : Except Fault TypeTable := TypeTable.ofValue "supertype" v

/-- The table of all ancestors that a value describes. -/
def ancestorsOfValue (v : Value) : Except Fault TypeTable := TypeTable.ofValue "ancestor" v

/-- The layer over a core registry, on a namespace. -/
def Layer.build (space : CoreNamespace) (supertypes : Supertypes) (audience : Audience) :
    Except Fault Layer := do
  if let .unfit v := audience then
    throw (.rule "on_event is not callable" [("on_event", v)])
  match supertypes with
  | .index table => return ⟨space, table, .ascending⟩
  | .described v => return ⟨space, ← indexOfValue v, .ascending⟩

end Ancestry.Closure
