import Mathlib.Data.List.Forall2
import Mathlib.Logic.Relation
import Ancestry.Closure.Query
import Ancestry.Memo

/-!
# Workers that share a memo

A crew is any number of workers, each with a list of types whose ancestors it asks for, one query
after the other.  Each query walks by itself; what the workers share is the memo.  A step of the
crew is one access to the memo, a lookup or a write, by any one of the workers, together with all
that this worker then does by itself up to its next access (`Worker.Settles`).  The order in which
the workers take their turns is arbitrary.

The core registry is a function here: it has no state, and it is asked in between the accesses.
-/

namespace Ancestry.Closure

/-! ## 1. One worker -/

/-- A worker: the query that it is at, the types that it is still to ask about, and the answers
that it has got, the last one in front. -/
structure Worker where
  current : Option (TypeName × Query) := none
  ahead : List TypeName
  answered : List (TypeName × TypeSet) := []

namespace Worker

/-- A worker that has not begun. -/
def new (plan : List TypeName) : Worker := { ahead := plan }

/-- The types that a worker asks about, from first to last. -/
def plan (worker : Worker) : List TypeName :=
  worker.answered.reverse.map (·.1) ++ worker.current.toList.map (·.1) ++ worker.ahead

/-- What a worker does next without the memo, if it can do anything without it. -/
def advance (layer : Layer) (known : TypeName → TypeSet) (worker : Worker) : Option Worker :=
  match worker.current with
  | none =>
    match worker.ahead with
    | [] => none
    | t :: ahead => some { worker with current := some (t, ⟨.ask t, .empty⟩), ahead := ahead }
  | some (t, q) =>
    match layer.step q with
    | .silent next => some { worker with current := some (t, next) }
    | .core u next => some { worker with current := some (t, (next (known u)).1) }
    | .lookup _ _ _ => none
    | .store _ _ _ => none
    | .answer set => some { worker with current := none, answered := (t, set) :: worker.answered }

/-- The next access of a worker to the memo, if it is the memo that it needs. -/
def access (layer : Layer) (memo : Memo) (worker : Worker) : Option (Worker × Memo) :=
  match worker.current with
  | none => none
  | some (t, q) =>
    match layer.step q with
    | .lookup u hit miss =>
      let next := match (memo.get u).1 with
        | some set => hit set
        | none => miss
      some ({ worker with current := some (t, next) }, (memo.get u).2)
    | .store u set next => some ({ worker with current := some (t, next) }, memo.store u set)
    | .silent _ => none
    | .core _ _ => none
    | .answer _ => none

/-- The worker does all that it can do without the memo. -/
def Settles (layer : Layer) (known : TypeName → TypeSet) (worker settled : Worker) : Prop :=
  Relation.ReflTransGen (fun w w' => w.advance layer known = some w') worker settled ∧
    settled.advance layer known = none

/-- The worker has asked all its questions. -/
def Done (worker : Worker) : Prop := worker.current = none ∧ worker.ahead = []

end Worker

/-! ## 2. The crew -/

/-- Some workers and the memo that they share. -/
structure Crew where
  memo : Memo
  workers : List Worker

namespace Crew

/-- One access to the memo by one worker, and what this worker then does without it. -/
inductive Step (layer : Layer) (known : TypeName → TypeSet) : Crew → Crew → Prop
  | turn {memo memo' : Memo} {front back : List Worker} {worker accessed settled : Worker}
    (haccess : worker.access layer memo = some (accessed, memo'))
    (hsettles : accessed.Settles layer known settled) :
    Step layer known ⟨memo, front ++ worker :: back⟩ ⟨memo', front ++ settled :: back⟩

/-- Any number of steps, of whichever workers. -/
def Later (layer : Layer) (known : TypeName → TypeSet) : Crew → Crew → Prop :=
  Relation.ReflTransGen (Step layer known)

/-- The crew begins, with an empty memo and each worker at its first access. -/
def Begins (layer : Layer) (known : TypeName → TypeSet) (plans : List (List TypeName))
    (crew : Crew) : Prop :=
  crew.memo = .empty ∧
    List.Forall₂ (fun plan worker => (Worker.new plan).Settles layer known worker) plans
      crew.workers

/-- All workers are done. -/
def Done (crew : Crew) : Prop := ∀ worker ∈ crew.workers, worker.Done

end Crew
end Ancestry.Closure
