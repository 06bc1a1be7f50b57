import Ancestry.Proofs.Registry.Sound

/-!
# The memo at every moment

A layer is watched turn by turn, with any listener, from the moment when it is new.  Questions come
one after the other, and in the middle of each the listener may ask others, to any depth, or cut
the query short at any event, even between two writes of the same component.  At each of these
moments every set in the memo is the whole set of its type, and no set that was in it is gone or
another one; and a query that comes to an answer has the answer of a new layer to which no listener
listens (`moments_sound`).

Nothing is said of queries that end: a listener may keep one waiting forever.
-/

namespace Ancestry.Closure

variable {σ τ : Type} {layer : Layer} {known : TypeName → TypeSet} {question : Question}
  {core : Core σ} {valid : σ → Prop} {listener : Listener τ} {session : Session σ τ}

/-! ## 1. Moments -/

/-- Where a layer stands between two turns. -/
inductive Moment (σ τ : Type)
  /-- No query is under way. -/
  | idle (world : World σ τ)
  /-- The question is being answered. -/
  | busy (question : Question) (session : Session σ τ)

/-- What the queries of the layer share at a moment. -/
def Moment.world : Moment σ τ → World σ τ
  | .idle world => world
  | .busy _ session => session.world

/-- The moment at which a session to answer the question stands. -/
def Progress.moment (question : Question) : Progress σ τ → Moment σ τ
  | .ongoing session => .busy question session
  | .ended _ world => .idle world

/-- What may come after a moment.  Between two questions the listener may come by another memory,
as it is not heard of there. -/
inductive Moment.Next (layer : Layer) (core : Core σ) (listener : Listener τ) :
    Moment σ τ → Moment σ τ → Prop
  | ask (world : World σ τ) (question : Question) (memory : τ) :
    Next layer core listener (.idle world)
      (.busy question ⟨question.activation, [], { world with listener := memory }⟩)
  | turn (question : Question) (session : Session σ τ) :
    Next layer core listener (.busy question session)
      ((session.turn layer core listener).moment question)

/-- Any number of turns and questions later. -/
def Moment.Later (layer : Layer) (core : Core σ) (listener : Listener τ) :
    Moment σ τ → Moment σ τ → Prop :=
  Relation.ReflTransGen (Moment.Next layer core listener)

/-- The innermost query of the session comes to its answer with the turn that is next. -/
def Session.Returns (layer : Layer) (session : Session σ τ) (set : TypeSet) : Prop :=
  session.top.delivering = none ∧ layer.step session.top.query = .answer set

/-- What the innermost query returns is what the query ends with, or what the listener is told that
asked it. -/
theorem Session.Returns.turn {set : TypeSet} (h : session.Returns layer set) :
    session.turn layer core listener = session.conclude listener session.world (.ok set) := by
  unfold Session.turn
  rw [h.1]
  simp only [h.2]

/-- The turns of a run are moments, one after the other. -/
theorem run_later (question : Question) (turns : Nat) : ∀ session : Session σ τ,
    Moment.Later layer core listener (.busy question session)
      ((session.run layer core listener turns).moment question) := by
  induction turns with
  | zero => exact fun _ => .refl
  | succ turns ih =>
    intro session
    have hturn : Moment.Next layer core listener (.busy question session) _ :=
      .turn question session
    unfold Session.run
    cases hp : session.turn layer core listener with
    | ongoing next =>
      rw [hp] at hturn
      exact .head hturn (ih next)
    | ended outcome world =>
      rw [hp] at hturn
      exact .single hturn

/-! ## 2. What is true at every moment -/

/-- At this moment the memo is right and the queries are on their way. -/
def Moment.Sound (layer : Layer) (known : TypeName → TypeSet) (valid : σ → Prop) :
    Moment σ τ → Prop
  | .idle world => world.Sound layer known valid
  | .busy question session => session.Sound layer known valid question

/-- **What may come next keeps the memo right**, and takes nothing out of it. -/
theorem next_sound {moment next : Moment σ τ} (hcore : core.Faithful valid known)
    (h : moment.Sound layer known valid) (hnext : moment.Next layer core listener next) :
    next.Sound layer known valid ∧ moment.world.memo.Grows next.world.memo := by
  cases hnext with
  | ask world question memory =>
    exact ⟨Session.sound_begin question ⟨h.memo, h.core⟩, .refl _⟩
  | turn question session =>
    have hturn := turn_sound hcore h (turn_turn layer core listener session)
    cases hp : session.turn layer core listener with
    | ongoing next =>
      rw [hp] at hturn
      exact hturn
    | ended outcome world =>
      rw [hp] at hturn
      exact ⟨hturn.1.1, hturn.2⟩

theorem later_sound {moment later : Moment σ τ} (hcore : core.Faithful valid known)
    (h : moment.Sound layer known valid) (hlater : moment.Later layer core listener later) :
    later.Sound layer known valid ∧ moment.world.memo.Grows later.world.memo := by
  induction hlater with
  | refl => exact ⟨h, .refl _⟩
  | tail _ hnext ih =>
    obtain ⟨hs, hgrows⟩ := ih
    obtain ⟨hs', hgrows'⟩ := next_sound hcore hs hnext
    exact ⟨hs', hgrows.trans hgrows'⟩

/-- What the innermost query returns is the answer to its question. -/
theorem Session.Returns.answers {set : TypeSet} (h : session.Sound layer known valid question)
    (hset : session.Returns layer set) :
    (questionOf question session.top session.rest).Answers layer known (fun _ => none) set := by
  have hstep := step_good h.underway.1
  rw [hset.2] at hstep
  exact hstep.1

/-- **The memo never holds a part of a set, whatever the listener does.**  At every moment the sets
in the memo of a layer over any registry are those of their types, and they stay in it for good;
and every query that returns, from whatever depth, returns what a new layer over a new core
registry answers where nobody listens. -/
theorem moments_sound (layer : Layer) (core : Registry) (listener : Listener τ) (memory : τ)
    {moment : Moment core.State τ}
    (hmoment : Moment.Later layer core.toCore listener (.idle ⟨.empty, core.fresh, memory⟩)
      moment) :
    (∀ t set, moment.world.memo.peek? t = some set →
      ∀ x, x ∈ set ↔
        layer.space.contains x = true ∧ (layer.hierarchy core.answer).Reaches t x) ∧
    (∀ later, Moment.Later layer core.toCore listener moment later →
      ∀ t set, moment.world.memo.peek? t = some set → later.world.memo.peek? t = some set) ∧
    (∀ question session set, moment = .busy question session → session.Returns layer set →
      layer.undisturbed core (questionOf question session.top session.rest) = .ok set) ∧
    ∀ question session set world, moment = .busy question session →
      session.turn layer core.toCore listener = .ended (.ok set) world →
      layer.undisturbed core question = .ok set := by
  have hbelow := core.answers_answer
  have hcore := Registry.toCore_faithful hbelow
  have hfresh : Moment.Sound layer core.answer core.Sound
      (.idle ⟨.empty, core.fresh, memory⟩ : Moment core.State τ) :=
    ⟨Memo.sound_empty, core.sound_fresh⟩
  have hs := (later_sound hcore hfresh hmoment).1
  have hanswer : ∀ {question set}, Question.Answers layer core.answer (fun _ => none) question set →
      layer.undisturbed core question = .ok set := by
    intro question set hset
    obtain ⟨set', hset', hanswers⟩ := undisturbed_answers hbelow layer question
    rw [hset', hanswers.unique hset]
  refine ⟨?_, ?_, ?_, ?_⟩
  · intro t set hset x
    have hmemo : moment.world.memo.Sound (layer.hierarchy core.answer) := by
      cases moment with
      | idle world => exact hs.memo
      | busy question session => exact hs.world.memo
    exact (hmemo t set hset x).trans (Hierarchy.inherits_iff fun _ => rfl)
  · intro later hlater
    exact (later_sound hcore hs hlater).2
  · rintro question session set rfl hreturns
    exact hanswer (hreturns.answers hs)
  · rintro question session set world rfl hturn
    have hended := (turn_sound hcore hs (turn_turn layer core.toCore listener session)).1
    rw [hturn] at hended
    exact hanswer (hended.2 set rfl)

/-- A query cut short between the two writes of a component leaves one of its types in the memo
with its whole set. -/
theorem moments_sound_cutShort :
    let layer : Layer := ⟨.standard, .ofEntries [("a", .ofNames ["b"]),
      ("b", .ofNames ["a", "org/gradle/C"])], .ascending⟩
    let world : World Registry.empty.State Watch :=
      ⟨.empty, Registry.empty.fresh, { hooks := [⟨⟨.cacheStore, "b"⟩, .cutShort⟩] }⟩
    ∃ moment, Moment.Later layer Registry.empty.toCore .hooks (.idle world) moment ∧
      moment.world.memo.peek? "a" = none ∧
      ∃ set, moment.world.memo.peek? "b" = some set ∧ ∀ x, x ∈ set ↔
        layer.space.contains x = true ∧ (layer.hierarchy Registry.empty.answer).Reaches "b" x := by
  intro layer world
  have hask : Moment.Next layer Registry.empty.toCore .hooks (.idle world) _ :=
    .ask world (.closure "a") world.listener
  have hlater := Relation.ReflTransGen.head hask (run_later (.closure "a") 19 _)
  obtain ⟨hmemo, _⟩ := moments_sound layer Registry.empty .hooks world.listener hlater
  have hb : ((Session.run layer Registry.empty.toCore Listener.hooks 19
      ⟨(Question.closure "a").activation, [], world⟩).moment
        (.closure "a")).world.memo.peek? "b" = some (.ofNames ["org/gradle/C"]) := by
    decide +kernel
  exact ⟨_, hlater, by decide +kernel, _, hb, hmemo "b" _ hb⟩

end Ancestry.Closure
