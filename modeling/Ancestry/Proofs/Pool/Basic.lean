import Ancestry.Closure.Batch
import Ancestry.Closure.Registry

/-!
# A pool of workers

The queries of a batch may be put to one registry by several workers at a time.  Each of them is a
request then, which is given a turn now and again; between two turns of one request others may have
theirs, also while the core registry is at work for it.  What the requests share is the state of the
registry, the memos and the listeners of all its layers.  A turn is the same as in a session
(`Session.turn`), but for the core registry, which is asked turn by turn itself.

A query waits until a worker is free (`Pool.Step`).  Which of those that wait is taken up, which
request gets the next turn and which query is done first is left open.  When all are done, their
outcomes are gathered in any order, and listed in the order of the batch (`gather`).
-/

namespace Ancestry.Closure

variable {ρ σ : Type}

/-! ## 1. Requests -/

/-- A registry that is asked turn by turn: the request with which a query for the ancestors of a
type begins, and what a turn makes of a request and of the state of the registry. -/
structure Service (ρ σ : Type) where
  request : TypeName → ρ
  turn : ρ → σ → (ρ ⊕ Outcome) × σ

/-- A request to a layer: the queries under way, `top` being the innermost one, and the request to
the core registry for which that one waits, if it does. -/
structure Thread (ρ : Type) where
  top : Activation
  rest : List Activation := []
  waiting : Option ρ := none

/-- A session after a turn, as a request and what it shares with others. -/
def Progress.thread : Progress σ Watch → (Thread ρ ⊕ Outcome) × World σ Watch
  | .ongoing session => (.inl ⟨session.top, session.rest, none⟩, session.world)
  | .ended outcome world => (.inr outcome, world)

/-- The core registry that has an outcome ready, whatever it is asked. -/
def Core.giving (outcome : Outcome) : Core σ := ⟨fun _ s => (outcome, s), true, 0⟩

/-- A layer over a core registry that is asked turn by turn.  A query that wants an answer of the
core registry hands its turns on to a request there until that has come to an end. -/
def Layer.service (layer : Layer) (core : Service ρ σ) : Service (Thread ρ) (World σ Watch) where
  request t := { top := .ancestors t }
  turn thread world :=
    match thread.top.delivering, layer.step thread.top.query with
    | none, .core t _ =>
      match core.turn (thread.waiting.getD (core.request t)) world.core with
      | (.inl waiting, state) =>
        (.inl { thread with waiting := some waiting }, { world with core := state })
      | (.inr outcome, state) =>
        (Session.turn ⟨thread.top, thread.rest, { world with core := state }⟩ layer
          (.giving outcome) .hooks).thread
    | _, _ =>
      -- Nothing is asked of the core registry here.
      (Session.turn ⟨thread.top, thread.rest, world⟩ layer (.giving (.ok ∅)) .hooks).thread

namespace Registry

/-- A request to a registry. -/
def Request : Registry → Type
  | table _ => TypeName
  | layered _ _ core => Thread core.Request

/-- A registry that is asked turn by turn, on all its layers. -/
def service : (registry : Registry) → Service registry.Request registry.State
  | table ancestors => ⟨id, fun t s => (.inr (.ok (ancestors.getD t)), s)⟩
  | layered layer _ core => layer.service core.service

end Registry

/-! ## 2. The pool -/

/-- The queries of a batch: the types still to be asked about, the requests under way and the
outcomes, the last one in front; and the state of the registry that is asked. -/
structure Pool (ρ σ : Type) where
  ahead : List TypeName
  running : List (TypeName × ρ) := []
  finished : List (TypeName × Outcome) := []
  state : σ

namespace Pool

/-- A batch that begins. -/
def new (names : List TypeName) (state : σ) : Pool ρ σ :=
  { ahead := distinct names, state := state }

/-- All queries have come to an end. -/
def Done (pool : Pool ρ σ) : Prop := pool.ahead = [] ∧ pool.running = []

/-- What can happen in a pool of a number of workers: a free worker takes a query up, or a request
has a turn, after which it goes on or is done. -/
inductive Step (service : Service ρ σ) (workers : Nat) : Pool ρ σ → Pool ρ σ → Prop
  | start {front back : List TypeName} {t : TypeName} {running : List (TypeName × ρ)}
    {finished : List (TypeName × Outcome)} {state : σ} (hfree : running.length < workers) :
    Step service workers ⟨front ++ t :: back, running, finished, state⟩
      ⟨front ++ back, running ++ [(t, service.request t)], finished, state⟩
  | turn {ahead : List TypeName} {front back : List (TypeName × ρ)} {t : TypeName} {r r' : ρ}
    {finished : List (TypeName × Outcome)} {state state' : σ}
    (hturn : service.turn r state = (.inl r', state')) :
    Step service workers ⟨ahead, front ++ (t, r) :: back, finished, state⟩
      ⟨ahead, front ++ (t, r') :: back, finished, state'⟩
  | finish {ahead : List TypeName} {front back : List (TypeName × ρ)} {t : TypeName} {r : ρ}
    {outcome : Outcome} {finished : List (TypeName × Outcome)} {state state' : σ}
    (hturn : service.turn r state = (.inr outcome, state')) :
    Step service workers ⟨ahead, front ++ (t, r) :: back, finished, state⟩
      ⟨ahead, front ++ back, (t, outcome) :: finished, state'⟩

/-- So many steps, one after the other. -/
inductive Runs (service : Service ρ σ) (workers : Nat) : Nat → Pool ρ σ → Pool ρ σ → Prop
  | refl {pool : Pool ρ σ} : Runs service workers 0 pool pool
  | step {n : Nat} {pool next last : Pool ρ σ} (hruns : Runs service workers n pool next)
    (hstep : Step service workers next last) : Runs service workers (n + 1) pool last

end Pool

/-! ## 3. Batches -/

/-- Why a batch has no result. -/
inductive Loss
  /-- A query was cut short at an event. -/
  | cutShort (e : Event)
  /-- There is no answer for a type of the batch. -/
  | unanswered (t : TypeName)
  deriving DecidableEq

/-- The types of a batch, each with the ascending list of its ancestors. -/
abbrev Listing : Type := Except Loss (List (TypeName × List TypeName))

/-- The number of workers for a batch: as many as there are jobs, but no more than queries, and one
at least. -/
def workers (jobs : Int) (names : List TypeName) : Nat :=
  (max 1 (min jobs (distinct names).length)).toNat

/-- The answers by type, with the outcomes taken in order. -/
def answersOf (outcomes : List (TypeName × Outcome)) :
    Except Loss (Std.ExtTreeMap TypeName (List TypeName) compare) :=
  outcomes.foldlM (fun answers (t, outcome) =>
    match outcome with
    | .ok set => .ok (answers.insert t set.toList)
    | .error e => .error (.cutShort e)) ∅

/-- A type with its answer. -/
def entryOf (answers : Std.ExtTreeMap TypeName (List TypeName) compare) (t : TypeName) :
    Except Loss (TypeName × List TypeName) :=
  match answers[t]? with
  | some list => .ok (t, list)
  | none => .error (.unanswered t)

/-- The ancestors of each type of a batch, listed in ascending order, from outcomes in any order. -/
def gather (names : List TypeName) (outcomes : List (TypeName × Outcome)) : Listing := do
  let answers ← answersOf outcomes
  (distinct names).mapM (entryOf answers)

/-- A batch that is put to a registry in a state, with a number of jobs, comes to a result and
leaves a state behind. -/
inductive Service.Batch (service : Service ρ σ) (jobs : Int) (names : List TypeName) (state : σ) :
    Listing → σ → Prop
  | ends {n : Nat} {pool : Pool ρ σ} {outcomes : List (TypeName × Outcome)}
    (hruns : Pool.Runs service (workers jobs names) n (.new names state) pool) (hdone : pool.Done)
    (houtcomes : outcomes.Perm pool.finished) :
    Batch service jobs names state (gather names outcomes) pool.state

/-- Batches are put to a registry one after the other. -/
inductive Service.Rounds (service : Service ρ σ) :
    List (Int × List TypeName) → σ → List Listing → σ → Prop
  | nil {state : σ} : Rounds service [] state [] state
  | concat {rounds : List (Int × List TypeName)} {jobs : Int} {names : List TypeName}
    {state state' state'' : σ} {results : List Listing} {result : Listing}
    (hrounds : Rounds service rounds state results state')
    (hbatch : service.Batch jobs names state' result state'') :
    Rounds service (rounds ++ [(jobs, names)]) state (results ++ [result]) state''

end Ancestry.Closure
