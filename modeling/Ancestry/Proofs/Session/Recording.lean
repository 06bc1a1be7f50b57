import Ancestry.Closure.Hook
import Ancestry.Proofs.Session.Quiet

/-!
# Listeners that only record

A listener may keep whatever it likes of the events that it hears of, and let every query go on
(`Listener.Records`).  Then what it remembers changes nothing: the session goes on as it would under
a listener that does not listen at all (`run_bare`, `steps_bare`), and so as it would under any
other listener that only records.
-/

namespace Ancestry.Closure

variable {σ τ υ : Type} {layer : Layer} {core : Core σ} {listener : Listener τ}
  {listener' : Listener υ} {calm : τ → Prop} {calm' : υ → Prop} {session : Session σ τ}
  {session' : Session σ υ}

/-- With a memory in which it is calm, the listener lets every query go on, and stays calm. -/
structure Listener.Records (listener : Listener τ) (calm : τ → Prop) : Prop where
  hear : ∀ e m, calm m → calm (listener.hear e m)
  act : ∀ e m, calm m → (listener.act e m).1 = .resume ∧ calm (listener.act e m).2

/-- The listener that does not listen. -/
def Listener.deaf : Listener Unit := ⟨fun _ _ => (), fun _ _ => (.resume, ()), fun _ _ _ => ()⟩

/-- What the queries of a layer share, without what the listener remembers. -/
def World.bare (world : World σ τ) : World σ Unit := ⟨world.memo, world.core, ()⟩

/-- The session without what the listener remembers. -/
def Session.bare (session : Session σ τ) : Session σ Unit :=
  ⟨session.top, session.rest, session.world.bare⟩

/-- Where the session stands, without what the listener remembers. -/
def Progress.bare : Progress σ τ → Progress σ Unit
  | .ongoing session => .ongoing session.bare
  | .ended outcome world => .ended outcome world.bare

/-- One query is under way, and the listener is calm. -/
structure Session.Lone (calm : τ → Prop) (session : Session σ τ) : Prop where
  rest : session.rest = []
  calm : calm session.world.listener

/-- If the session goes on, then with one query and a listener that is calm. -/
def Progress.Lone (calm : τ → Prop) : Progress σ τ → Prop
  | .ongoing session => session.Lone calm
  | .ended _ _ => True

/-- No hook waits for an event and no query was lost: the listener with hooks only keeps its
log. -/
def Watch.Calm (w : Watch) : Prop := w.hooks = [] ∧ w.lost = none

/-- With no hooks left to wait, the listener of a layer only records. -/
theorem hooks_records : Listener.hooks.Records Watch.Calm := by
  refine ⟨fun e w h => h, fun e w h => ?_⟩
  simp only [Listener.hooks, Watch.act, h.1, h.2, takeHook]
  exact ⟨trivial, h⟩

/-! ## One turn -/

/-- What a session announces and concludes, the session that nobody listens to does as well. -/
theorem announce_bare (hlistener : listener.Records calm) (hsession : session.Lone calm)
    {world : World σ τ} (hworld : world.listener = session.world.listener) (q : Query)
    (event : Option Event) :
    (session.announce listener world q event).Lone calm ∧
      (session.announce listener world q event).bare =
        session.bare.announce .deaf world.bare q event := by
  have hcalm : calm world.listener := hworld ▸ hsession.calm
  cases event with
  | none => exact ⟨⟨hsession.rest, hcalm⟩, rfl⟩
  | some e => exact ⟨⟨hsession.rest, hlistener.hear e _ hcalm⟩, rfl⟩

theorem conclude_bare (hsession : session.Lone calm) (world : World σ τ) (outcome : Outcome) :
    (session.conclude listener world outcome).Lone calm ∧
      (session.conclude listener world outcome).bare =
        session.bare.conclude .deaf world.bare outcome := by
  unfold Session.conclude
  rw [show session.bare.rest = [] from hsession.rest, hsession.rest]
  exact ⟨trivial, rfl⟩

/-- **A turn does not depend on what the listener remembers**, as long as it only records. -/
theorem turn_bare (layer : Layer) (core : Core σ) (hlistener : listener.Records calm)
    (hsession : session.Lone calm) :
    (session.turn layer core listener).Lone calm ∧
      (session.turn layer core listener).bare = session.bare.turn layer core .deaf := by
  have hturn := turn_turn layer core listener session
  generalize session.turn layer core listener = progress at hturn
  cases hturn with
  | @deliver e hd =>
    have hbare : session.bare.Turn layer core .deaf _ := .deliver hd
    obtain ⟨hresume, hcalm⟩ := hlistener.act e _ hsession.calm
    rw [hbare.turn_eq]
    simp only [Session.deliver, hresume]
    exact ⟨⟨hsession.rest, hcalm⟩, rfl⟩
  | silent hd hstep =>
    have hbare : session.bare.Turn layer core .deaf _ := .silent hd hstep
    rw [hbare.turn_eq]
    refine announce_bare hlistener hsession ?_ _ _
    rfl
  | core hd hstep hanswer =>
    have hbare : session.bare.Turn layer core .deaf _ := .core hd hstep hanswer
    rw [hbare.turn_eq]
    refine announce_bare hlistener hsession ?_ _ _
    rfl
  | fail hd hstep hanswer =>
    have hbare : session.bare.Turn layer core .deaf _ := .fail hd hstep hanswer
    rw [hbare.turn_eq]
    exact conclude_bare hsession _ _
  | hit hd hstep hset =>
    have hbare : session.bare.Turn layer core .deaf _ := .hit hd hstep hset
    rw [hbare.turn_eq]
    refine announce_bare hlistener hsession ?_ _ _
    rfl
  | miss hd hstep hset =>
    have hbare : session.bare.Turn layer core .deaf _ := .miss hd hstep hset
    rw [hbare.turn_eq]
    refine announce_bare hlistener hsession ?_ _ _
    rfl
  | store hd hstep =>
    have hbare : session.bare.Turn layer core .deaf _ := .store hd hstep
    rw [hbare.turn_eq]
    refine announce_bare hlistener hsession ?_ _ _
    rfl
  | answer hd hstep =>
    have hbare : session.bare.Turn layer core .deaf _ := .answer hd hstep
    rw [hbare.turn_eq]
    exact conclude_bare hsession _ _

/-! ## Whole runs -/

/-- **A run does not depend on what the listener remembers**, as long as it only records. -/
theorem run_bare (layer : Layer) (core : Core σ) (hlistener : listener.Records calm)
    (turns : Nat) :
    ∀ {session : Session σ τ}, session.Lone calm →
      (session.run layer core listener turns).bare = session.bare.run layer core .deaf turns := by
  induction turns with
  | zero => exact fun _ => rfl
  | succ turns ih =>
    intro session hsession
    obtain ⟨hlone, hturn⟩ := turn_bare layer core hlistener hsession
    unfold Session.run
    rw [← hturn]
    cases hp : session.turn layer core listener with
    | ongoing next =>
      rw [hp] at hlone
      exact ih hlone
    | ended outcome world => rfl

/-- So the two take the same number of turns. -/
theorem steps_bare (layer : Layer) (core : Core σ) (hlistener : listener.Records calm)
    (turns : Nat) :
    ∀ {session : Session σ τ}, session.Lone calm →
      session.steps layer core listener turns = session.bare.steps layer core .deaf turns := by
  induction turns with
  | zero => exact fun _ => rfl
  | succ turns ih =>
    intro session hsession
    obtain ⟨hlone, hturn⟩ := turn_bare layer core hlistener hsession
    unfold Session.steps
    rw [← hturn]
    cases hp : session.turn layer core listener with
    | ongoing next =>
      rw [hp] at hlone
      exact congrArg _ (ih hlone)
    | ended outcome world => rfl

/-- Under two listeners that only record, a session comes to the same end by the same steps. -/
theorem ended_of_bare (hlistener : listener.Records calm) (hlistener' : listener'.Records calm')
    (hsession : session.Lone calm) (hsession' : session'.Lone calm')
    (hbare : session.bare = session'.bare) {turns : Nat} {outcome : Outcome} {world' : World σ υ}
    (hended : session'.run layer core listener' turns = .ended outcome world') :
    ∃ world, session.run layer core listener turns = .ended outcome world ∧
      world.memo = world'.memo ∧ world.core = world'.core ∧
      session.steps layer core listener turns = session'.steps layer core listener' turns := by
  have hrun := (run_bare layer core hlistener turns hsession).trans
    ((congrArg (Session.run layer core .deaf turns) hbare).trans
      (run_bare layer core hlistener' turns hsession').symm)
  have hsteps := (steps_bare layer core hlistener turns hsession).trans
    ((congrArg (Session.steps layer core .deaf turns) hbare).trans
      (steps_bare layer core hlistener' turns hsession').symm)
  rw [hended] at hrun
  cases hp : session.run layer core listener turns with
  | ongoing next =>
    rw [hp] at hrun
    cases hrun
  | ended outcome' world =>
    rw [hp] at hrun
    obtain ⟨rfl, hworld⟩ := Progress.ended.inj hrun
    exact ⟨world, rfl, congrArg World.memo hworld, congrArg World.core hworld, hsteps⟩

end Ancestry.Closure
