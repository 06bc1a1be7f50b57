import Ancestry.Proofs.Query.Checked
import Ancestry.Proofs.Query.Past
import Ancestry.Proofs.Registry.Moments

/-!
# The books of all walks under way

A walk looks up numbers, low points and what types have put aside, and takes types off its stack,
without asking whether they are there.  Here it is shown that they always are
(`bookkeeping_holds`): for any layer and any core registry, whatever the memo holds when a query
begins, whatever the listener does in the middle of it, and even if others write what they like to
the memo while the query waits.  None of this can touch the walk itself, which hears of it only
through the answers that it is given; so each query under way has a past (`Layer.Runs`), and the
past is all that is needed.
-/

namespace Ancestry.Closure

variable {σ τ : Type} {layer : Layer} {core : Core σ} {listener : Listener τ}
  {session : Session σ τ} {moment : Moment σ τ}

/-! ## 1. Moments at which others meddle -/

/-- The same moment, with other things shared by the queries. -/
def Moment.sharing (world : World σ τ) : Moment σ τ → Moment σ τ
  | .idle _ => .idle world
  | .busy question session => .busy question { session with world := world }

/-- What may come after a moment when others may put anything into the memo, and put the core
registry and the listener into any state, between any two turns. -/
inductive Moment.Meddled (layer : Layer) (core : Core σ) (listener : Listener τ)
    (moment : Moment σ τ) : Moment σ τ → Prop
  | next {next : Moment σ τ} (hnext : moment.Next layer core listener next) :
    Meddled layer core listener moment next
  | meddle (world : World σ τ) : Meddled layer core listener moment (moment.sharing world)

/-- Nobody has to meddle. -/
theorem Moment.Later.meddled {later : Moment σ τ} (h : moment.Later layer core listener later) :
    Relation.ReflTransGen (Moment.Meddled layer core listener) moment later :=
  Relation.ReflTransGen.mono (fun _ _ hnext => Meddled.next hnext) _ _ h

/-! ## 2. Every query under way has a past -/

/-- The query of the activation has come from a question. -/
def Activation.Runs (layer : Layer) (a : Activation) : Prop :=
  ∃ (question : Question) (past : List Query),
    layer.Runs question.activation.query past a.query

/-- All queries under way have come from questions. -/
def Moment.Runs (layer : Layer) : Moment σ τ → Prop
  | .idle _ => True
  | .busy _ session => ∀ a ∈ session.top :: session.rest, a.Runs layer

theorem Activation.Runs.next {a a' : Activation} (h : a.Runs layer)
    (hnext : (layer.step a.query).Leads a'.query) : a'.Runs layer := by
  obtain ⟨question, past, hruns⟩ := h
  exact ⟨question, _, hruns.tail hnext⟩

theorem announce_runs {question : Question} {world : World σ τ} {q : Query} (event : Option Event)
    (hq : ∀ a : Activation, a.query = q → a.Runs layer)
    (hrest : ∀ a ∈ session.rest, a.Runs layer) :
    ((session.announce listener world q event).moment question).Runs layer := by
  cases event with
  | none => exact List.forall_mem_cons.mpr ⟨hq _ rfl, hrest⟩
  | some e => exact List.forall_mem_cons.mpr ⟨hq _ rfl, hrest⟩

theorem conclude_runs {question : Question} {world : World σ τ} (outcome : Outcome)
    (hrest : ∀ a ∈ session.rest, a.Runs layer) :
    ((session.conclude listener world outcome).moment question).Runs layer := by
  unfold Session.conclude
  cases hr : session.rest with
  | nil => trivial
  | cons outer rest =>
    rw [hr] at hrest
    exact hrest

theorem deliver_runs {question : Question} (e : Event)
    (h : ∀ a ∈ session.top :: session.rest, a.Runs layer) :
    ((session.deliver listener e).moment question).Runs layer := by
  obtain ⟨htop, hrest⟩ := List.forall_mem_cons.mp h
  unfold Session.deliver
  rcases listener.act e session.world.listener with ⟨choice, m⟩
  cases choice with
  | resume => exact List.forall_mem_cons.mpr ⟨htop, hrest⟩
  | query t => exact List.forall_mem_cons.mpr ⟨⟨.ancestors t, [], .refl⟩, h⟩
  | cutShort e' => exact conclude_runs _ hrest

/-- **A turn lengthens the past of the innermost query**, or leaves the queries as they are. -/
theorem turn_runs {question : Question} {progress : Progress σ τ}
    (h : ∀ a ∈ session.top :: session.rest, a.Runs layer)
    (hturn : session.Turn layer core listener progress) :
    (progress.moment question).Runs layer := by
  obtain ⟨htop, hrest⟩ := List.forall_mem_cons.mp h
  have hgoes : ∀ q, (layer.step session.top.query).Leads q →
      ∀ a : Activation, a.query = q → a.Runs layer :=
    fun q hq a ha => htop.next (ha ▸ hq)
  cases hturn with
  | deliver hd => exact deliver_runs _ h
  | silent hd hstep => exact announce_runs _ (hgoes _ (hstep ▸ rfl)) hrest
  | core hd hstep hanswer => exact announce_runs _ (hgoes _ (hstep ▸ ⟨_, rfl⟩)) hrest
  | fail hd hstep hanswer => exact conclude_runs _ hrest
  | hit hd hstep hset => exact announce_runs _ (hgoes _ (hstep ▸ .inr ⟨_, rfl⟩)) hrest
  | miss hd hstep hset => exact announce_runs _ (hgoes _ (hstep ▸ .inl rfl)) hrest
  | store hd hstep => exact announce_runs _ (hgoes _ (hstep ▸ rfl)) hrest
  | answer hd hstep => exact conclude_runs _ hrest

theorem meddled_runs {next : Moment σ τ} (h : moment.Runs layer)
    (hnext : moment.Meddled layer core listener next) : next.Runs layer := by
  cases hnext with
  | next hnext =>
    cases hnext with
    | ask world question memory =>
      exact List.forall_mem_cons.mpr ⟨⟨question, [], .refl⟩, fun a ha => absurd ha (by simp)⟩
    | turn question session => exact turn_runs h (turn_turn layer core listener session)
  | meddle world =>
    cases moment with
    | idle _ => trivial
    | busy question session => exact h

/-! ## 3. What the past says of a query -/

/-- A question begins with a walk that has nothing in mind. -/
theorem recorded_activation (question : Question) :
    question.activation.query.Recorded layer [] := by
  cases question with
  | ancestors t => exact recorded_begin ⟨rfl, rfl⟩ rfl
  | closure t => exact recorded_begin ⟨rfl, rfl⟩ rfl
  | supertypes t => exact recorded_begin ⟨rfl, rfl⟩ rfl

/-- A walk that scans has a frame, and its step does not fail. -/
theorem Query.Recorded.scan?_eq {past : List Query} {q : Query} (h : q.Recorded layer past)
    (hscan : q.phase = .scan) :
    q.walk.frames ≠ [] ∧ Layer.scan? q.walk = some (layer.step q) := by
  obtain ⟨phase, w⟩ := q
  obtain rfl : phase = .scan := hscan
  obtain ⟨_, p, below, _, hw⟩ := h.fits
  have hframes : w.frames ≠ [] := fun hnil => absurd (hw.frames_eq.symm.trans hnil) (by simp)
  exact ⟨hframes, hw.orderly.scan?_eq hframes⟩

theorem later_runs {world : World σ τ}
    (h : Relation.ReflTransGen (Moment.Meddled layer core listener) (.idle world) moment) :
    moment.Runs layer := by
  induction h with
  | refl => trivial
  | tail _ hnext ih => exact meddled_runs ih hnext

/-- **The books of a walk are always in order.**  Take any moment that comes about with any
listener, over any core registry and from any memo, where others may meanwhile change the memo as
they like, and any query under way, which has come from a question by steps.  What its walk has in
mind fits together.  When it is about to take a supertype or to leave a frame, there is a frame,
every lookup finds something, and the stack does not run out before the root of the component.  When
it is about to give an answer, after it has entered a type at all, then the component that it closed
last is that of the type which it entered first, and the answer is the set of this component. -/
theorem bookkeeping_holds (layer : Layer) (core : Core σ) (listener : Listener τ)
    {world : World σ τ} {question : Question} {session : Session σ τ}
    (hmoment : Relation.ReflTransGen (Moment.Meddled layer core listener) (.idle world)
      (.busy question session)) :
    ∀ a ∈ session.top :: session.rest,
      (∃ (asked : Question) (past : List Query),
        layer.Runs asked.activation.query past a.query) ∧
      a.query.walk.Orderly ∧
      (a.query.phase = .scan → a.query.walk.frames ≠ [] ∧
        Layer.scan? a.query.walk = some (layer.step a.query)) ∧
      ∀ (asked : Question) (past : List Query),
        layer.Runs asked.activation.query past a.query →
        ∀ start set, (entries past).head? = some start → a.query.phase = .answer set →
          layer.ClosedLast past start set := by
  intro a ha
  obtain ⟨asked, past, hruns⟩ := later_runs hmoment a ha
  have hrecorded := hruns.recorded (recorded_activation asked)
  refine ⟨⟨asked, past, hruns⟩, hrecorded.fits.orderly, hrecorded.scan?_eq, ?_⟩
  intro asked' past' hruns' start set hstart hset
  have hfits := (hruns'.recorded (recorded_activation asked')).fits
  rw [hset] at hfits
  exact hfits.2 start hstart

/-- Somebody puts a set into the memo when a walk around a cycle has begun, and in the middle of it
the listener asks about the other type of the cycle.  Both walks are in order. -/
theorem bookkeeping_holds_reentered :
    let layer : Layer := ⟨.standard, .ofEntries [("a", .ofNames ["b"]),
      ("b", .ofNames ["a", "c"])], .ascending⟩
    let core := Registry.empty
    let world : World core.State Watch :=
      ⟨.empty, core.fresh, { hooks := [⟨⟨.cacheMiss, "b"⟩, .query "b"⟩] }⟩
    ∃ session, Relation.ReflTransGen (Moment.Meddled layer core.toCore .hooks) (.idle world)
        (.busy (.closure "a") session) ∧
      session.top.query.walk.stack = ["a", "b"] ∧
      session.rest.map (·.query.walk.stack) = [["a"]] ∧
      ∀ a ∈ session.top :: session.rest, a.query.walk.Orderly := by
  intro layer core world
  let session : Session core.State Watch := ⟨(Question.closure "a").activation, [],
    { world with memo := Memo.empty.store "c" (.ofNames ["stray"]) }⟩
  have hask : Relation.ReflTransGen (Moment.Meddled layer core.toCore .hooks) (.idle world)
      (.busy (.closure "a") session) :=
    .tail (.single (.next (.ask world (.closure "a") world.listener))) (.meddle session.world)
  have hrun : Relation.ReflTransGen (Moment.Meddled layer core.toCore .hooks) (.idle world) _ :=
    hask.trans (run_later (.closure "a") 12 session).meddled
  have hstacks : (match session.run layer core.toCore .hooks 12 with
      | .ongoing s => (s.top.query.walk.stack, s.rest.map (·.query.walk.stack))
      | .ended _ _ => ([], [])) = (["a", "b"], [["a"]]) := by
    decide +kernel
  cases hp : session.run layer core.toCore .hooks 12 with
  | ended outcome world =>
    rw [hp] at hstacks
    cases hstacks
  | ongoing s =>
    rw [hp] at hstacks hrun
    obtain ⟨htop, hrest⟩ := Prod.mk.inj hstacks
    exact ⟨s, hrun, htop, hrest, fun a ha =>
      (bookkeeping_holds layer core.toCore .hooks hrun a ha).2.1⟩

end Ancestry.Closure
