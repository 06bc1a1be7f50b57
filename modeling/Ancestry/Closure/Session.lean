import Ancestry.Closure.Query
import Ancestry.Memo

/-!
# Queries under a listener

A session answers queries on one layer, with one memo and one core registry behind it, while a
listener hears of every event.  When an event is delivered the listener may let the query go on,
ask a query of its own in the middle of it, or cut the query short.  A query asked from within is
answered before the outer one goes on, so the queries under way form a stack; each but the
innermost waits in the delivery of an event.  When a query is cut short, the delivery in which it
was asked continues, and the listener may cut that short in turn.  The core registry may have a
listener of its own; when that one cuts a query of the core registry short, the query that wanted
its answer is cut short with it, at the same event.

The listener and the core registry are arbitrary state machines.  `Session.run` takes a number of
turns; `Layer.bound` is enough of them for a query that nobody interferes with.
-/

namespace Ancestry.Closure

/-- How a query ends: with an answer, or cut short at an event. -/
abbrev Outcome := Except Event TypeSet

/-- A registry that is asked for the ancestors of core types; it may change its state when asked.
Besides the name that is asked about, its answers hold at most `extent` names. -/
structure Core (σ : Type) where
  ancestors : TypeName → σ → Outcome × σ
  isEmpty : Bool
  extent : Nat

/-- The same registry, with a list of the names it was asked about, the last one in front. -/
def Core.recorded {σ : Type} (core : Core σ) : Core (σ × List TypeName) where
  ancestors t s :=
    let (outcome, s') := core.ancestors t s.1
    (outcome, s', t :: s.2)
  isEmpty := core.isEmpty
  extent := core.extent

/-- What a listener does next about an event that is being delivered. -/
inductive Choice
  /-- It lets the query go on. -/
  | resume
  /-- It asks for the ancestors of a type. -/
  | query (t : TypeName)
  /-- It cuts the query short, at this event or at the one that a query of its own was cut short
  at. -/
  | cutShort (e : Event)

/-- A listener with a memory of its own. -/
structure Listener (τ : Type) where
  /-- It hears of an event. -/
  hear : Event → τ → τ
  /-- It says what it does next about the event, of which it has heard. -/
  act : Event → τ → Choice × τ
  /-- It is told how a query of its own ended. -/
  told : TypeName → Outcome → τ → τ

/-- What the queries of a layer share. -/
structure World (σ τ : Type) where
  memo : Memo
  core : σ
  listener : τ

/-- A query under way, and the event whose delivery it waits for, if any. -/
structure Activation where
  asked : TypeName
  query : Query
  delivering : Option Event := none

/-- A query for the ancestors of a type, about to begin. -/
def Activation.ancestors (t : TypeName) : Activation := ⟨t, ⟨.ask t, .empty⟩, none⟩

/-- The queries under way, `top` being the innermost one, and what they share. -/
structure Session (σ τ : Type) where
  top : Activation
  rest : List Activation
  world : World σ τ

/-- Where a session stands after a turn. -/
inductive Progress (σ τ : Type)
  | ongoing (session : Session σ τ)
  /-- The outermost query has ended. -/
  | ended (outcome : Outcome) (world : World σ τ)

namespace Session

variable {σ τ : Type}

/-- The innermost query goes on as `q`, and the listener hears of the event, if there is one. -/
def announce (session : Session σ τ) (listener : Listener τ) (world : World σ τ) (q : Query)
    (event : Option Event) : Progress σ τ :=
  match event with
  | none => .ongoing { session with top := { session.top with query := q }, world := world }
  | some e =>
    .ongoing
      { session with
        top := { session.top with query := q, delivering := some e }
        world := { world with listener := listener.hear e world.listener } }

/-- The innermost query ends, and the listener is told how, if the query is one of its own. -/
def conclude (session : Session σ τ) (listener : Listener τ) (world : World σ τ)
    (outcome : Outcome) : Progress σ τ :=
  match session.rest with
  | [] => .ended outcome world
  | outer :: rest =>
    .ongoing
      ⟨outer, rest,
        { world with listener := listener.told session.top.asked outcome world.listener }⟩

/-- The listener acts on the event that is being delivered to it. -/
def deliver (session : Session σ τ) (listener : Listener τ) (e : Event) : Progress σ τ :=
  let (choice, memory) := listener.act e session.world.listener
  let world := { session.world with listener := memory }
  match choice with
  | .resume =>
    .ongoing { session with top := { session.top with delivering := none }, world := world }
  | .query t => .ongoing ⟨.ancestors t, session.top :: session.rest, world⟩
  | .cutShort e => session.conclude listener world (.error e)

/-- One turn: the delivery that is under way continues, or else the innermost query takes a
step. -/
def turn (session : Session σ τ) (layer : Layer) (core : Core σ) (listener : Listener τ) :
    Progress σ τ :=
  let world := session.world
  match session.top.delivering with
  | some e => session.deliver listener e
  | none =>
    match layer.step session.top.query with
    | .silent q => session.announce listener world q none
    | .core t next =>
      let (outcome, state) := core.ancestors t world.core
      let world := { world with core := state }
      match outcome with
      | .ok set =>
        let (q, occasion) := next set
        session.announce listener world q (occasion.map (⟨·, t⟩))
      | .error e => session.conclude listener world (.error e)
    | .lookup t hit miss =>
      let (found, memo) := world.memo.get t
      let world := { world with memo := memo }
      match found with
      | some set => session.announce listener world (hit set) (some ⟨.cacheHit, t⟩)
      | none => session.announce listener world miss (some ⟨.cacheMiss, t⟩)
    | .store t set q =>
      session.announce listener { world with memo := world.memo.store t set } q
        (some ⟨.cacheStore, t⟩)
    | .answer set => session.conclude listener world (.ok set)

/-- Takes up to the given number of turns, until the outermost query has ended. -/
def run (layer : Layer) (core : Core σ) (listener : Listener τ) :
    Nat → Session σ τ → Progress σ τ
  | 0, session => .ongoing session
  | turns + 1, session =>
    match session.turn layer core listener with
    | .ongoing next => run layer core listener turns next
    | .ended outcome world => .ended outcome world

end Session

namespace Layer

/-- Enough turns for any query to which no listener adds another.  A walk enters no type twice and
takes no supertype of a type twice, so with `n` names about there are no more than `n` types with
`n` supertypes each; a few turns go to each type besides, and as many turns again to
deliveries. -/
def bound {σ : Type} (layer : Layer) (core : Core σ) : Nat :=
  let names := layer.index.extent + core.extent + 1
  2 * ((names + 2) * (names + 5))

end Layer
end Ancestry.Closure
