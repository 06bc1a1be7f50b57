import Ancestry.Proofs.Session.Length

/-!
# What a query comes to

A query under hooks ends, and if it ends with an answer, the answer is the right one
(`query_sound`); the memo is right afterwards, even where the query was cut short.  Where no hook
cuts a query short, on the layer itself or further down, every query ends with an answer
(`query_answers`).
-/

namespace Ancestry.Closure

variable {σ : Type} {layer : Layer} {known : TypeName → TypeSet} {question : Question}
  {core : Core σ} {valid patient : σ → Prop} {session : Session σ Watch} {world : World σ Watch}
  {names : List TypeName}

/-! ## 1. Hooks that cut nothing short -/

/-- No hook cuts a query short. -/
structure Watch.Patient (w : Watch) : Prop where
  lost : w.lost = none
  hooks : ∀ hook ∈ w.hooks, ∃ t, hook.reaction = .query t

/-- No hook of the layer cuts a query short, and the core registry is in a patient state. -/
structure World.Patient (patient : σ → Prop) (world : World σ Watch) : Prop where
  listener : world.listener.Patient
  core : patient world.core

/-- In its patient states, which it does not leave, the core registry answers. -/
structure Core.Steady (core : Core σ) (valid patient : σ → Prop) : Prop where
  answers : ∀ t s, valid s → patient s → ∃ set, (core.ancestors t s).1 = .ok set
  keeps : ∀ t s, valid s → patient s → patient (core.ancestors t s).2

/-- Nothing was cut short, and nothing is going to be. -/
def Progress.Patient (patient : σ → Prop) : Progress σ Watch → Prop
  | .ongoing session => session.world.Patient patient
  | .ended outcome world => (∃ set, outcome = .ok set) ∧ world.Patient patient

theorem mem_of_takeHook {e : Event} {hook : Hook} {others : List Hook} :
    ∀ {hooks : List Hook}, takeHook e hooks = some (hook, others) →
      hook ∈ hooks ∧ ∀ other ∈ others, other ∈ hooks
  | [], h => absurd h (by simp [takeHook])
  | first :: hooks, h => by
    unfold takeHook at h
    split at h
    · cases h
      exact ⟨List.mem_cons_self, fun other ho => List.mem_cons_of_mem _ ho⟩
    · obtain ⟨found, hfound, heq⟩ := Option.map_eq_some_iff.mp h
      cases heq
      obtain ⟨hhook, hothers⟩ := mem_of_takeHook hfound
      refine ⟨List.mem_cons_of_mem _ hhook, fun other ho => ?_⟩
      rcases List.mem_cons.mp ho with rfl | ho
      · exact List.mem_cons_self
      · exact List.mem_cons_of_mem _ (hothers other ho)

/-- Patient hooks resume or ask, and those that wait on are patient. -/
theorem Watch.Patient.act {w : Watch} (h : w.Patient) (e : Event) :
    (w.act e).2.Patient ∧ ∀ e', (w.act e).1 ≠ .cutShort e' := by
  unfold Watch.act
  rw [h.lost]
  dsimp only
  split
  · exact ⟨h, fun e' he => absurd he (by simp)⟩
  · next hook others htake =>
    obtain ⟨hhook, hothers⟩ := mem_of_takeHook htake
    obtain ⟨t, ht⟩ := h.hooks hook hhook
    rw [ht]
    exact ⟨⟨rfl, fun other ho => h.hooks other (hothers other ho)⟩,
      fun e' he => absurd he (by simp)⟩

/-! ## 2. Sessions in which nothing is cut short -/

/-- Nothing that a turn may do makes a patient session impatient. -/
theorem announce_patient (hworld : world.Patient patient) (q : Query) (event : Option Event) :
    (session.announce .hooks world q event).Patient patient := by
  cases event with
  | none => exact hworld
  | some e => exact ⟨⟨hworld.listener.lost, hworld.listener.hooks⟩, hworld.core⟩

theorem conclude_patient (hworld : world.Patient patient) (set : TypeSet) :
    (session.conclude .hooks world (.ok set)).Patient patient := by
  unfold Session.conclude
  cases session.rest with
  | nil => exact ⟨⟨set, rfl⟩, hworld⟩
  | cons outer rest => exact ⟨⟨hworld.listener.lost, hworld.listener.hooks⟩, hworld.core⟩

theorem deliver_patient (h : session.world.Patient patient) (e : Event) :
    (session.deliver .hooks e).Patient patient := by
  obtain ⟨hpatient, hresume⟩ := h.listener.act e
  unfold Session.deliver
  simp only [Listener.hooks]
  rcases hact : session.world.listener.act e with ⟨choice, w⟩
  rw [hact] at hpatient hresume
  cases choice with
  | resume => exact ⟨hpatient, h.core⟩
  | query t => exact ⟨hpatient, h.core⟩
  | cutShort e' => exact absurd rfl (hresume e')

/-- A turn cuts nothing short if no hook does. -/
theorem turn_patient {progress : Progress σ Watch} (hcore : core.Steady valid patient)
    (hvalid : valid session.world.core) (h : session.world.Patient patient)
    (hturn : session.Turn layer core .hooks progress) : progress.Patient patient := by
  cases hturn with
  | deliver hd => exact deliver_patient h _
  | silent hd hq => exact announce_patient h _ _
  | core hd hq hanswer =>
    refine announce_patient ?_ _ _
    exact ⟨h.listener, hcore.keeps _ _ hvalid h.core⟩
  | fail hd hq hanswer =>
    obtain ⟨set, hset⟩ := hcore.answers _ _ hvalid h.core
    exact absurd (hset.symm.trans hanswer) (by simp)
  | hit hd hq hset =>
    refine announce_patient ?_ _ _
    exact ⟨h.listener, h.core⟩
  | miss hd hq hset =>
    refine announce_patient ?_ _ _
    exact ⟨h.listener, h.core⟩
  | store hd hq =>
    refine announce_patient ?_ _ _
    exact ⟨h.listener, h.core⟩
  | answer hd hq => exact conclude_patient h _

/-- **A session that has begun patiently runs patiently to its end.** -/
theorem run_patient (hfaithful : core.Faithful valid known) (hcore : core.Steady valid patient)
    (turns : Nat) :
    ∀ {session : Session σ Watch}, session.Sound layer known valid question →
      session.world.Patient patient →
        (session.run layer core .hooks turns).Patient patient := by
  induction turns with
  | zero => exact fun _ h => h
  | succ turns ih =>
    intro session hsound h
    have hturn := turn_turn layer core .hooks session
    have hs := (turn_sound hfaithful hsound hturn).1
    have hp := turn_patient hcore hsound.world.core h hturn
    unfold Session.run
    cases he : session.turn layer core .hooks with
    | ended outcome world =>
      rw [he] at hp
      exact hp
    | ongoing next =>
      rw [he] at hs hp
      exact ih hs hp

/-! ## 3. Queries -/

/-- What a layer says is what the session came to. -/
theorem query_eq {outcome : Outcome} {world' : World σ Watch}
    (h : Session.run layer core .hooks
      ((world.listener.hooks.length + 1) * (layer.bound core + 2))
      ⟨question.activation, [], world⟩ = .ended outcome world') :
    layer.query core question world = (outcome, world') := by
  unfold Layer.query
  simp only [h]

/-- **A query keeps the memo right, takes nothing out of it, and gives no wrong answer**, under any
hooks. -/
theorem query_sound (hnames : layer.Spans known names)
    (hlen : names.length ≤ layer.index.extent + core.extent) (hcore : core.Faithful valid known)
    (h : world.Sound layer known valid) (question : Question) :
    (layer.query core question world).2.Sound layer known valid ∧
      world.memo.Grows (layer.query core question world).2.memo ∧
      ∀ set, (layer.query core question world).1 = .ok set →
        question.Answers layer known (fun _ => none) set := by
  obtain ⟨outcome, world', hrun⟩ := query_ends hnames hlen hcore h question
  have hs := run_sound .hooks hcore
    ((world.listener.hooks.length + 1) * (layer.bound core + 2))
    (Session.sound_begin question h)
  rw [query_eq hrun]
  rw [hrun] at hs
  exact ⟨hs.1.1, hs.2, hs.1.2⟩

/-- **A query that nothing cuts short is answered.** -/
theorem query_answers (hnames : layer.Spans known names)
    (hlen : names.length ≤ layer.index.extent + core.extent) (hcore : core.Faithful valid known)
    (hsteady : core.Steady valid patient) (h : world.Sound layer known valid)
    (hpatient : world.Patient patient) (question : Question) :
    (∃ set, (layer.query core question world).1 = .ok set) ∧
      (layer.query core question world).2.Patient patient := by
  obtain ⟨outcome, world', hrun⟩ := query_ends hnames hlen hcore h question
  have hp := run_patient hcore hsteady
    ((world.listener.hooks.length + 1) * (layer.bound core + 2))
    (Session.sound_begin question h) hpatient
  rw [query_eq hrun]
  rw [hrun] at hp
  exact hp

end Ancestry.Closure
