import Ancestry.TypeName

/-!
# Events

What a listener hears about while queries are answered.
-/

namespace Ancestry.Closure

/-- The kinds of events. -/
inductive Occasion
  /-- The core registry answered a query by itself. -/
  | coreHit
  /-- A walk reached a core type of which the core registry knows nothing. -/
  | coreUnknown
  /-- The memo had a type. -/
  | cacheHit
  /-- The memo did not have a type. -/
  | cacheMiss
  /-- The memo took the set of a type. -/
  | cacheStore
  deriving DecidableEq, Repr

/-- The word for an occasion. -/
def Occasion.label : Occasion → String
  | .coreHit => "core:hit"
  | .coreUnknown => "core:unknown"
  | .cacheHit => "cache:hit"
  | .cacheMiss => "cache:miss"
  | .cacheStore => "cache:store"

/-- Something that happened to a type. -/
structure Event where
  occasion : Occasion
  type : TypeName
  deriving DecidableEq, Repr

end Ancestry.Closure
