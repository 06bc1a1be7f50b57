import Ancestry.Proofs.Query.Drawn
import Ancestry.Proofs.Registry.Components
import Ancestry.Proofs.Session.Recording

/-!
# Every query ends

A query may be put to a layer with anything in its memo, over any registry, while the listeners only
record.  It ends within the turns that the layer allows for it (`Layer.bound`), whatever cycles
there are and wherever the core registry leads it, because nothing is done twice: no type is entered
twice and no supertype of a type is drawn twice, and the types that are entered are few.  They are
the type that is asked about and types that the index, an index further down or the table at the
bottom mentions.  `Layer.Halts` says all this of one run.

The core registry may be a layer over another registry, and its own queries are runs of this kind
again (`Registry.Halts`).  Its memo may not hold anything, though: what is in it becomes an answer,
and so supertypes of the layer above.  It holds what its own queries have put there
(`Registry.Sound`).
-/

namespace Ancestry.Closure

open Scene

variable {σ τ : Type} {layer : Layer} {known : TypeName → TypeSet}
  {given : TypeName → Option TypeSet} {question : Question} {core : Core σ} {valid : σ → Prop}
  {names : List TypeName} {past : List Query} {q : Query} {s s' : Scene σ}

/-! ## 1. What a scene has passed -/

/-- What is entered with a step is among the names. -/
theorem Query.Good.coming_mem {kept : TypeName → Prop}
    (hnames : question.Covered layer known given names)
    (h : q.Good layer known given kept question) : ∀ t ∈ q.coming, t ∈ names := by
  obtain ⟨phase, w⟩ := q
  cases phase with
  | enter u =>
    intro t ht
    obtain rfl := List.mem_singleton.mp ht
    obtain ⟨start, parts, hseeks, hw, _, _, hstart⟩ := h.phase
    exact enter_mem_names hnames hseeks hw hstart
  | _ => exact fun t ht => absurd ht List.not_mem_nil

/-- What is drawn with a step is a direct supertype of the type for which it is drawn. -/
theorem Query.Good.drawing_above {kept : TypeName → Prop}
    (h : q.Good layer known given kept question) :
    ∀ p ∈ q.drawing, p.2 ∈ (layer.hierarchy known).above p.1 := by
  obtain ⟨phase, w⟩ := q
  cases phase with
  | scan =>
    obtain ⟨start, p, below, _, hw⟩ := h.phase
    intro pair hpair
    rw [drawing_scan hw.frames_eq] at hpair
    obtain ⟨u, hu, rfl⟩ := List.mem_map.mp hpair
    exact hw.keeps.1.above u (List.mem_append_right _ (List.mem_of_mem_take hu))
  | _ => exact fun p hp => absurd hp List.not_mem_nil

/-- What has been passed up to a scene: nothing was entered or drawn twice, the types that were
entered are among the names, and what was drawn are their supertypes. -/
structure Scene.Travelled (layer : Layer) (known : TypeName → TypeSet)
    (given : TypeName → Option TypeSet) (valid : σ → Prop) (question : Question)
    (names : List TypeName) (past : List Query) (s : Scene σ) : Prop where
  good : s.Good layer known given valid question
  recorded : s.query.Recorded layer past
  drawn : s.query.Drawn past
  named : ∀ t ∈ entries past, t ∈ names
  above : ∀ p ∈ drawings past, p.2 ∈ (layer.hierarchy known).above p.1

/-- **Every move keeps to the names and does nothing twice.** -/
theorem Scene.Travelled.moves (hnames : question.Covered layer known given names)
    (hcore : core.Settled valid known)
    (h : s.Travelled layer known given valid question names past)
    (hmove : s.Moves layer core s') :
    s'.Travelled layer known given valid question names (past ++ [s.query]) := by
  refine ⟨h.good.moves hcore hmove, h.recorded.next hmove.leads,
    h.drawn.next h.recorded hmove.leads, fun t ht => ?_, fun p hp => ?_⟩
  · rw [entries_append, List.mem_append] at ht
    exact ht.elim (h.named t) (h.good.query.coming_mem hnames t)
  · rw [drawings_append, List.mem_append] at hp
    exact hp.elim (h.above p) (h.good.query.drawing_above p)

/-- Nothing has been passed when a question is put to a memo. -/
theorem travelled_start (question : Question) (memo : Memo) {state : σ} (hstate : valid state) :
    (start question memo state).Travelled layer known memo.peek? valid question names [] := by
  refine ⟨good_start question memo hstate, ?_, ?_, by simp [entries], by simp [drawings]⟩
  · cases question with
    | ancestors t => exact recorded_begin ⟨rfl, rfl⟩ rfl
    | closure t => exact recorded_begin ⟨rfl, rfl⟩ rfl
    | supertypes t => exact recorded_begin ⟨rfl, rfl⟩ rfl
  · have hwalk : (start question memo state).query.walk = .empty := by
      cases question <;> rfl
    constructor <;> simp [drawings, hwalk, Walk.undrawn, Walk.empty]

/-! ## 2. Registries whose listeners only record -/

/-- A world in which the listener only keeps its log. -/
theorem world_of_calm {world : World σ Watch} (h : world.listener.Calm) :
    world = ⟨world.memo, world.core, { hooks := [], log := world.listener.log }⟩ := by
  obtain ⟨memo, state, ⟨hooks, log, lost⟩⟩ := world
  obtain ⟨rfl, rfl⟩ : hooks = [] ∧ lost = none := h
  rfl

namespace Registry

/-- The listeners of all layers of a registry only keep their logs. -/
def Recording : (registry : Registry) → registry.State → Prop
  | table _, _ => True
  | layered _ _ core, world => world.listener.Calm ∧ core.Recording world.core

theorem Recording.patient : ∀ {registry : Registry} {state : registry.State},
    registry.Recording state → registry.Patient state
  | table _, _, _ => trivial
  | layered _ _ _, _, ⟨hcalm, hcore⟩ =>
    ⟨⟨hcalm.2, fun _ hhook => absurd (hcalm.1 ▸ hhook) List.not_mem_nil⟩, hcore.patient⟩

/-- **A registry whose listeners only record gives its answers, and they go on to record.** -/
theorem recording_settled : ∀ registry : Registry,
    registry.toCore.Settled (fun s => registry.Sound s ∧ registry.Recording s) registry.answer
  | table _ => fun _ _ _ => ⟨rfl, trivial, trivial⟩
  | layered layer hooks core => by
    rintro t world ⟨hsound, hcalm, hrecording⟩
    have hpatient : (layered layer hooks core).Patient world :=
      Recording.patient (show (layered layer hooks core).Recording world from ⟨hcalm, hrecording⟩)
    obtain ⟨hanswer, hsound', _⟩ :=
      (layered layer hooks core).settled t world ⟨hsound, hpatient⟩
    refine ⟨hanswer, hsound', ?_⟩
    -- The query leaves a scene behind whose core registry is still in a state of this kind.
    have hcore : core.Sound world.core := (hsound core.answer core.answers_answer).core
    obtain ⟨hlen, hspans⟩ := core.answers_answer.spans_mentioned layer
    obtain ⟨n, set, final, hends, hquery⟩ := query_quiet hspans hlen core.recording_settled
      (.ancestors t) world.memo ⟨hcore, hrecording⟩ world.listener.log
    have hfinal := (hends.answers core.recording_settled
      (good_start (.ancestors t) world.memo ⟨hcore, hrecording⟩)).1
    have hworld : ((layered layer hooks core).toCore.ancestors t world).2 =
        final.world world.listener.log := by
      rw [← world_of_calm hcalm] at hquery
      exact congrArg Prod.snd hquery
    rw [hworld]
    exact ⟨⟨rfl, rfl⟩, hfinal.core.2⟩

end Registry

/-! ## 3. Runs that end -/

/-- A question put to a layer ends with an answer, and leaves the core registry in a state of the
kind in which it was.  No type is entered twice on the way, and no supertype is drawn twice for the
same type.  Each is drawn for a type that was entered, and each type that is entered is asked about
or mentioned in an index or a table. -/
structure Layer.Halts (layer : Layer) (core : Registry) (listener : Listener τ)
    (question : Question) (world : World core.State τ) (turns : Nat) : Prop where
  ends : ∃ set world', Session.run layer core.toCore listener turns
    ⟨question.activation, [], world⟩ = .ended (.ok set) world' ∧
      core.Sound world'.core ∧ core.Recording world'.core
  entered : (entries (Session.steps layer core.toCore listener turns
    ⟨question.activation, [], world⟩)).Nodup
  drawn : (drawings (Session.steps layer core.toCore listener turns
    ⟨question.activation, [], world⟩)).Nodup
  above : ∀ p ∈ drawings (Session.steps layer core.toCore listener turns
    ⟨question.activation, [], world⟩), p.1 ∈ entries (Session.steps layer core.toCore listener turns
      ⟨question.activation, [], world⟩) ∧ p.2 ∈ (layer.hierarchy core.answer).above p.1
  mentioned : ∀ t ∈ entries (Session.steps layer core.toCore listener turns
    ⟨question.activation, [], world⟩),
      t = question.activation.asked ∨ t ∈ layer.index.mentioned ∨ t ∈ core.mentioned

/-- The queries of a registry end, on each of its layers and in every state to which its own queries
can bring it. -/
def Registry.Halts : Registry → Prop
  | table _ => True
  | layered layer _ core => core.Halts ∧
      ∀ (world : World core.State Watch), core.Sound world.core → core.Recording world.core →
        world.listener.Calm → ∀ question turns, layer.bound core.toCore ≤ turns →
          layer.Halts core .hooks question world turns

/-- **A query under hooks of which none is left ends.** -/
theorem hooks_halts (layer : Layer) (core : Registry) {state : core.State}
    (hsound : core.Sound state) (hrecording : core.Recording state) (memo : Memo)
    (log : List Note) (question : Question) {turns : Nat}
    (hturns : layer.bound core.toCore ≤ turns) :
    layer.Halts core .hooks question ⟨memo, state, { hooks := [], log := log }⟩ turns := by
  have hstate := And.intro hsound hrecording
  obtain ⟨hlen, hspans⟩ := core.answers_answer.spans_mentioned layer
  have hnames : question.Covered layer core.answer memo.peek? _ := hspans.covers question
  have hgood : (start question memo state).Good layer core.answer memo.peek?
      (fun s => core.Sound s ∧ core.Recording s) question := good_start question memo hstate
  obtain ⟨n, set, final, past, hends, hpasses, hrun, _, hsteps⟩ :=
    exists_passes hnames core.recording_settled question.activation.asked log turns hgood
      (Nat.le_trans (turnsLeft_start_le hlen question) hturns)
  have hfinal : final.Travelled layer core.answer memo.peek?
      (fun s => core.Sound s ∧ core.Recording s) question _ past :=
    hpasses.keeps (fun _ _ _ hs hmove => hs.moves hnames core.recording_settled hmove)
      (travelled_start question memo hstate)
  have hanswer : layer.step final.query = .answer set :=
    (hends.keeps (P := fun _ => True) (fun _ _ _ _ => trivial) trivial).2
  have hphase := hfinal.recorded.answered hanswer
  have hsession : (⟨question.activation, [], ⟨memo, state, { hooks := [], log := log }⟩⟩ :
      Session core.State Watch) =
        (start question memo state).session question.activation.asked log := by
    cases question <;> rfl
  -- The query that gives the answer enters and draws nothing.
  have hentries : entries (past ++ [final.query]) = entries past := by
    rw [entries_append, Query.coming, hphase, List.append_nil]
  have hdrawings : drawings (past ++ [final.query]) = drawings past := by
    rw [drawings_append, Query.drawing, hphase, List.append_nil]
  refine ⟨?_, ?_, ?_, ?_, ?_⟩
  · rw [hsession]
    exact ⟨set, _, hrun, hfinal.good.core⟩
  · rw [hsession, hsteps, hentries]
    exact hfinal.recorded.nodup
  · rw [hsession, hsteps, hdrawings]
    exact (List.nodup_append.mp hfinal.drawn.nodup).1
  · rw [hsession, hsteps, hentries, hdrawings]
    exact fun p hp => ⟨hfinal.drawn.entered p (List.mem_append_left _ hp), hfinal.above p hp⟩
  · rw [hsession, hsteps, hentries]
    intro t ht
    simpa [Question.within] using hfinal.named t ht

/-- **The queries of every registry end.** -/
theorem Registry.halts : ∀ registry : Registry, registry.Halts
  | table _ => trivial
  | layered layer _ core => by
    refine ⟨core.halts, fun world hsound hrecording hcalm question turns hturns => ?_⟩
    rw [world_of_calm hcalm]
    exact hooks_halts layer core hsound hrecording world.memo _ question hturns

/-- **Every query ends.**  A question may be put to a layer with anything in its memo, over any
registry whose memos are right, while the listeners do nothing but record.  It is answered within
the turns of the layer.  On the way no type is entered twice and no supertype is drawn twice for a
type, and every type that is entered is the one that was asked about or is mentioned in an index or
a table.  The same holds of every query that the core registry answers by a walk of its own. -/
theorem query_halts (layer : Layer) (core : Registry) {listener : Listener τ} {calm : τ → Prop}
    (hlistener : listener.Records calm) {state : core.State} (hsound : core.Sound state)
    (hrecording : core.Recording state) (memo : Memo) {memory : τ} (hcalm : calm memory)
    (question : Question) {turns : Nat} (hturns : layer.bound core.toCore ≤ turns) :
    layer.Halts core listener question ⟨memo, state, memory⟩ turns ∧ core.Halts := by
  have hhooks := hooks_halts layer core hsound hrecording memo [] question hturns
  obtain ⟨set, world', hrun, hworld'⟩ := hhooks.ends
  have hlone : Session.Lone calm ⟨question.activation, [], ⟨memo, state, memory⟩⟩ := ⟨rfl, hcalm⟩
  obtain ⟨world, hended, _, hcore, hsteps⟩ :=
    ended_of_bare hlistener hooks_records hlone ⟨rfl, rfl, rfl⟩ rfl hrun
  refine ⟨⟨⟨set, world, hended, hcore ▸ hworld'⟩, ?_, ?_, ?_, ?_⟩, core.halts⟩
  all_goals rw [hsteps]
  · exact hhooks.entered
  · exact hhooks.drawn
  · exact hhooks.above
  · exact hhooks.mentioned

/-- Two types on a cycle, one of them its own supertype, and a core type whose core registry leads
back to them.  The memo has a set for another supertype, which is therefore not entered. -/
theorem query_halts_cycle :
    let layer : Layer := ⟨.standard, .ofEntries [("a", .ofNames ["a", "b"]),
      ("b", .ofNames ["a", "c", "org/gradle/C"])], .ascending⟩
    let core : Registry := .layered ⟨.standard, .empty, .ascending⟩ []
      (.table (.ofEntries [("org/gradle/C", .ofNames ["b"])]))
    let memo := Memo.empty.store "c" (.ofNames ["stray"])
    let turns := layer.bound core.toCore
    let steps := Session.steps layer core.toCore Listener.hooks turns
      ⟨(Question.closure "a").activation, [], ⟨memo, core.fresh, { hooks := [] }⟩⟩
    (Listener.hooks.Records Watch.Calm ∧ core.Sound core.fresh ∧ core.Recording core.fresh ∧
      Watch.Calm { hooks := [] }) ∧
      layer.Halts core .hooks (.closure "a") ⟨memo, core.fresh, { hooks := [] }⟩ turns ∧
      entries steps = ["a", "b", "org/gradle/C"] ∧
      drawings steps = [("a", "a"), ("a", "b"), ("b", "a"), ("b", "c"), ("b", "org/gradle/C"),
        ("org/gradle/C", "b")] := by
  intro layer core memo turns steps
  have hrecording : core.Recording core.fresh := ⟨⟨rfl, rfl⟩, trivial⟩
  refine ⟨⟨hooks_records, core.sound_fresh, hrecording, rfl, rfl⟩, ?_, ?_, ?_⟩
  · exact (query_halts layer core hooks_records core.sound_fresh hrecording memo ⟨rfl, rfl⟩
      (.closure "a") (Nat.le_refl _)).1
  · decide +kernel
  · decide +kernel

end Ancestry.Closure
