import Ancestry.Closure.Session

/-!
# Hooks

A listener that keeps a log and carries out standing orders: a hook waits for one event, and when
that event comes it asks a query or cuts the query under way short.  Every hook acts once.
-/

namespace Ancestry.Closure

/-- What a hook does. -/
inductive Reaction
  | query (t : TypeName)
  | cutShort

/-- An order to be carried out when an event comes. -/
structure Hook where
  event : Event
  reaction : Reaction

/-- An entry of the log: an event, or the answer to a query that a hook asked. -/
inductive Note
  | event (e : Event)
  | answer (t : TypeName) (set : TypeSet)

/-- The memory of the listener: the hooks that have not acted yet, the log with its last entry in
front, and the event at which a query that a hook asked was cut short, until the query in which the
hook asked it is cut short as well. -/
structure Watch where
  hooks : List Hook
  log : List Note := []
  lost : Option Event := none

/-- The first hook that waits for an event, and the others. -/
def takeHook (e : Event) : List Hook → Option (Hook × List Hook)
  | [] => none
  | h :: hooks =>
    if h.event = e then some (h, hooks)
    else (takeHook e hooks).map fun found => (found.1, h :: found.2)

/-- What is done about an event: the first hook that waits for it acts, until none is left.  A hook
whose query was cut short does not let the query go on in which it asked it. -/
def Watch.act (e : Event) (w : Watch) : Choice × Watch :=
  match w.lost with
  | some e => (.cutShort e, { w with lost := none })
  | none =>
    match takeHook e w.hooks with
    | none => (.resume, w)
    | some (h, hooks) =>
      match h.reaction with
      | .query t => (.query t, { w with hooks := hooks })
      | .cutShort => (.cutShort e, { w with hooks := hooks })

/-- What is noted of the end of a query that a hook asked. -/
def Watch.told (t : TypeName) (outcome : Outcome) (w : Watch) : Watch :=
  match outcome with
  | .ok set => { w with log := .answer t set :: w.log }
  | .error e => { w with lost := some e }

/-- The listener that keeps a log and carries out hooks. -/
def Listener.hooks : Listener Watch where
  hear e w := { w with log := .event e :: w.log }
  act := Watch.act
  told := Watch.told

/-- What can be asked of a layer. -/
inductive Question
  /-- The core ancestors of a type. -/
  | ancestors (t : TypeName)
  /-- The set of a type from the memo or a walk, whatever the core registry says of it. -/
  | closure (t : TypeName)
  /-- The direct supertypes of a type. -/
  | supertypes (t : TypeName)

/-- The query for a question. -/
def Question.activation : Question → Activation
  | .ancestors t => .ancestors t
  | .closure t => ⟨t, ⟨.consult t, .empty⟩, none⟩
  | .supertypes t => ⟨t, ⟨.direct t, .empty⟩, none⟩

variable {σ : Type}

/-- Asks a question under hooks. -/
def Layer.query (layer : Layer) (core : Core σ) (question : Question) (world : World σ Watch) :
    Outcome × World σ Watch :=
  let turns := (world.listener.hooks.length + 1) * (layer.bound core + 2)
  match Session.run layer core .hooks turns ⟨question.activation, [], world⟩ with
  | .ended outcome world => (outcome, world)
  | .ongoing session => (.ok ∅, session.world)

end Ancestry.Closure
