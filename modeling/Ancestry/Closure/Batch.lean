import Ancestry.Closure.Hook

/-!
# Batches

Several types asked for at once.  A type that is named again is asked for only once, and the
answers are listed in the order in which the types are named first, whatever the order in which the
queries run.
-/

namespace Ancestry.Closure

/-- The names of a list without those that have come before. -/
def distinct (names : List TypeName) : List TypeName :=
  (names.foldl (fun (seen, kept) t =>
    if t ∈ seen then (seen, kept) else (seen.insert t, t :: kept))
    ((∅ : TypeSet), ([] : List TypeName))).2.reverse

variable {σ : Type}

/-- Asks for the ancestors of the types of a list, one after the other, and gathers the answers.
All queries run, even if one is cut short; then there are no answers but the event at which the
first one was. -/
def Layer.answersIn (layer : Layer) (core : Core σ) (order : List TypeName)
    (world : World σ Watch) :
    Except Event (Std.ExtTreeMap TypeName TypeSet compare) × World σ Watch :=
  order.foldl (fun (answers, world) t =>
    let (outcome, world) := layer.query core (.ancestors t) world
    (do return (← answers).insert t (← outcome), world)) (.ok ∅, world)

/-- The ancestors of each type of a list, listed in ascending order, where the queries run in the
given order. -/
def Layer.queryAllIn (layer : Layer) (core : Core σ) (order names : List TypeName)
    (world : World σ Watch) :
    Except Event (List (TypeName × List TypeName)) × World σ Watch :=
  let (answers, world) := layer.answersIn core order world
  (do
    let answers ← answers
    return (distinct names).map fun t => (t, ((answers[t]?).getD ∅).toList), world)

/-- The ancestors of each type of a list, listed in ascending order. -/
def Layer.queryAll (layer : Layer) (core : Core σ) (names : List TypeName)
    (world : World σ Watch) :
    Except Event (List (TypeName × List TypeName)) × World σ Watch :=
  layer.queryAllIn core (distinct names) names world

end Ancestry.Closure
