import Ancestry.Closure.Hook

/-!
# Registries

A registry answers the ancestors of types.  The simplest one is a table; any other is a layer with
an index of its own over another registry, which it takes for its core registry.  Each layer has a
memo, which grows as the registry is asked, and hooks, of which each acts once.
-/

namespace Ancestry.Closure

/-- A registry. -/
inductive Registry
  /-- A table from types to all their ancestors. -/
  | table (ancestors : TypeTable)
  /-- A layer over a core registry. -/
  | layered (layer : Layer) (hooks : List Hook) (core : Registry)

namespace Registry

/-- The state of a registry: the memo of each layer, and the hooks that have not acted yet. -/
def State : Registry → Type
  | table _ => Unit
  | layered _ _ core => World core.State Watch

/-- The state before the first query. -/
def fresh : (registry : Registry) → registry.State
  | table _ => ()
  | layered _ hooks core => ⟨.empty, core.fresh, { hooks := hooks }⟩

/-- A registry as the core registry of a layer above it. -/
def toCore : (registry : Registry) → Core registry.State
  | table ancestors =>
    { ancestors t s := (.ok (ancestors.getD t), s)
      isEmpty := ancestors.isEmpty
      extent := ancestors.extent }
  | layered layer _ core =>
    let below := core.toCore
    { ancestors t s := layer.query below (.ancestors t) s
      isEmpty := layer.index.isEmpty && below.isEmpty
      extent := layer.index.extent + below.extent }

/-- Asks for the ancestors of a type. -/
def ancestors (registry : Registry) (t : TypeName) (s : registry.State) :
    Outcome × registry.State :=
  registry.toCore.ancestors t s

/-- Whether a registry has no entry on any layer.  What its queries answer is another matter. -/
def isEmpty (registry : Registry) : Bool := registry.toCore.isEmpty

/-- The registry that knows nothing. -/
def empty : Registry := table .empty

end Registry
end Ancestry.Closure
