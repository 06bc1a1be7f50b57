import Mathlib.Data.Set.Finite.Basic
import Ancestry.Proofs.Session.Quiet

/-!
# Queries that reach few types

A query asks the core registry about types only that can be reached from its own (`asked_reached`).
So it does not matter what the core registry would say of others, or whether it would say anything:
it is enough that it answers for the types from which few names can be reached, where few means as
many as the turns of the query are reckoned for (`Core.SettledOn`, `Hierarchy.ReachesFew`).  The
names of two such queries need have nothing in common, and those of all queries together may be
without end.

A core registry that answers for these types only is put under guard (`Core.guarded`): what it is
not to be asked, the guard answers.  The guarded one answers for all types, and no session tells it
from the other (`query_guarded`).
-/

namespace Ancestry.Closure

variable {σ τ : Type} {layer : Layer} {known : TypeName → TypeSet}
  {given : TypeName → Option TypeSet} {kept : TypeName → Prop} {question : Question}
  {core core' : Core σ} {valid : σ → Prop} {domain : TypeName → Prop} {n m : Nat}
  {t u : TypeName}

/-! ## 1. Few names -/

namespace Hierarchy

variable {H : Hierarchy}

/-- From `t` there are no more than `n` other types to be reached. -/
def ReachesFew (H : Hierarchy) (n : Nat) (t : TypeName) : Prop :=
  ∃ names : List TypeName, names.length ≤ n ∧ ∀ x, H.Reaches t x → x = t ∨ x ∈ names

theorem ReachesFew.mono (h : H.ReachesFew n t) (hle : n ≤ m) : H.ReachesFew m t := by
  obtain ⟨names, hlen, hnames⟩ := h
  exact ⟨names, Nat.le_trans hlen hle, hnames⟩

/-- Further up there are no more types to be reached. -/
theorem ReachesFew.of_reaches (h : H.ReachesFew n t) (htu : H.Reaches t u) :
    H.ReachesFew n u := by
  obtain ⟨names, hlen, hnames⟩ := h
  by_cases hut : u = t
  · exact ⟨names, hlen, fun x hx => hut ▸ hnames x (htu.trans hx)⟩
  · -- Now `u` is one of the names, and `t` may take its place.
    have hu : u ∈ names := (hnames u htu).resolve_left hut
    refine ⟨t :: names.erase u, ?_, fun x hx => ?_⟩
    · rw [List.length_cons, List.length_erase_of_mem hu]
      have hpos := List.length_pos_of_mem hu
      omega
    · by_cases hxu : x = u
      · exact .inl hxu
      · rcases hnames x (htu.trans hx) with rfl | hx
        · exact .inr List.mem_cons_self
        · exact .inr (List.mem_cons_of_mem _ ((List.mem_erase_of_ne hxu).mpr hx))

/-- To reach few types is to reach finitely many, and the other way round. -/
theorem ReachesFew.finite (h : H.ReachesFew n t) : {x | H.Reaches t x}.Finite := by
  obtain ⟨names, _, hnames⟩ := h
  refine (List.finite_toSet (t :: names)).subset fun x hx => ?_
  exact List.mem_cons.mpr (hnames x hx)

theorem exists_reachesFew (hfinite : {x | H.Reaches t x}.Finite) : ∃ n, H.ReachesFew n t :=
  ⟨_, hfinite.toFinset.toList, Nat.le_refl _, fun x hx => .inr (by simpa using hx)⟩

end Hierarchy

/-- What a question seeks the set of is the type that is asked about. -/
theorem Question.Seeks.eq_asked (h : question.Seeks layer known t) :
    t = question.activation.asked := by
  cases question with
  | ancestors u => exact h.1.symm
  | closure u => exact Eq.symm h
  | supertypes u => exact absurd h not_false

/-- The names that can be reached cover the question. -/
theorem exists_covered
    (h : (layer.hierarchy known).ReachesFew n question.activation.asked) :
    ∃ names, names.length ≤ n ∧
      question.Covered layer known (fun _ => none) (question.within names) := by
  classical
  obtain ⟨names, hlen, hnames⟩ := h
  refine ⟨names.filter fun x => (layer.hierarchy known).Reaches question.activation.asked x,
    Nat.le_trans (List.length_filter_le _ _) hlen, fun u hu => ?_, fun u hu s hs => ?_⟩
  · rw [Question.Seeks.eq_asked hu]
    exact List.mem_cons_self
  · have hreach : (layer.hierarchy known).Reaches question.activation.asked u := by
      simp only [Question.within, List.mem_cons, List.mem_filter, decide_eq_true_eq] at hu
      rcases hu with rfl | rfl | hu
      · exact .refl
      · exact .refl
      · exact hu.2
    have hs : (layer.hierarchy known).Reaches question.activation.asked s := hreach.tail ⟨rfl, hs⟩
    rcases hnames s hs with rfl | hmem
    · exact List.mem_cons_self
    · exact List.mem_cons_of_mem _ (List.mem_cons_of_mem _
        (List.mem_filter.mpr ⟨hmem, decide_eq_true hs⟩))

/-! ## 2. What a query asks the core registry -/

/-- The core registry is asked only about core types, and only where it says nothing are they told
to be unknown. -/
theorem fetch_eq_core {next : TypeSet → Query} {next' : TypeSet → Query × Option Occasion}
    (h : layer.fetch u next = .core t next') :
    u = t ∧ layer.space.contains t = true ∧
      ∀ set, (next' set).2 = some .coreUnknown → set = ∅ := by
  unfold Layer.fetch at h
  split at h
  · cases h
  · split at h
    · next hc =>
      cases h
      refine ⟨rfl, hc, fun set hset => ?_⟩
      dsimp only at hset
      split at hset
      · next hempty => exact Std.ExtTreeSet.isEmpty_iff.mp hempty
      · cases hset
    · cases h

/-- The core registry is asked about core types, and of a type of which it knows anything the
listener does not hear that it is unknown. -/
theorem step_eq_core {q : Query} {next : TypeSet → Query × Option Occasion}
    (h : layer.step q = .core t next) :
    (q.phase = .ask t ∨ q.phase = .direct t ∨ q.phase = .enter t) ∧
      layer.space.contains t = true ∧ ∀ set, (next set).2 = some .coreUnknown → set = ∅ := by
  obtain ⟨phase, w⟩ := q
  cases phase with
  | ask u =>
    simp only [Layer.step] at h
    split at h
    · next hc =>
      cases h
      refine ⟨.inl rfl, hc, fun set hset => ?_⟩
      dsimp only at hset
      split at hset <;> cases hset
    · cases h
  | direct u =>
    obtain ⟨rfl, hrest⟩ := fetch_eq_core h
    exact ⟨.inr (.inl rfl), hrest⟩
  | enter u =>
    obtain ⟨rfl, hrest⟩ := fetch_eq_core h
    exact ⟨.inr (.inr rfl), hrest⟩
  | consult u => cases h
  | scan =>
    simp only [Layer.step] at h
    repeat' split at h
    all_goals cases h
  | close set members => cases members <;> cases h
  | answer set => cases h

/-- **A query asks the core registry about types that can be reached.** -/
theorem asked_reached {q : Query} {next : TypeSet → Query × Option Occasion}
    (h : q.Good layer known given kept question) (hstep : layer.step q = .core t next) :
    (layer.hierarchy known given).Reaches question.activation.asked t := by
  have hphase := h.phase
  rcases (step_eq_core hstep).1 with hask | hdirect | henter
  · rw [hask] at hphase
    cases hphase.1
    exact .refl
  · rw [hdirect] at hphase
    cases hphase.1
    exact .refl
  · rw [henter] at hphase
    obtain ⟨start, parts, hseeks, hw, _, _, hstart⟩ := hphase
    exact Question.Seeks.eq_asked hseeks ▸ enter_reached hw hstart

/-! ## 3. Core registries that answer for some types -/

/-- In the states `valid`, which it does not leave, the core registry answers `known` for the types
of a domain. -/
def Core.SettledOn (core : Core σ) (domain : TypeName → Prop) (valid : σ → Prop)
    (known : TypeName → TypeSet) : Prop :=
  ∀ t s, domain t → valid s →
    (core.ancestors t s).1 = .ok (known t) ∧ valid (core.ancestors t s).2

theorem Core.SettledOn.mono {domain' : TypeName → Prop} (h : core.SettledOn domain valid known)
    (hdomain : ∀ t, domain' t → domain t) : core.SettledOn domain' valid known :=
  fun t s ht hs => h t s (hdomain t ht) hs

open scoped Classical in
/-- The core registry under guard: of a type outside the domain it is not asked, and `known` is
answered in its place. -/
noncomputable def Core.guarded (core : Core σ) (domain : TypeName → Prop)
    (known : TypeName → TypeSet) : Core σ :=
  { core with ancestors t s := if domain t then core.ancestors t s else (.ok (known t), s) }

theorem Core.guarded_of (core : Core σ) (known : TypeName → TypeSet) (ht : domain t) (s : σ) :
    (core.guarded domain known).ancestors t s = core.ancestors t s :=
  if_pos ht

/-- Under guard a core registry answers for all types. -/
theorem Core.SettledOn.guarded (h : core.SettledOn domain valid known) :
    (core.guarded domain known).Settled valid known := by
  intro t s hs
  by_cases ht : domain t
  · rw [core.guarded_of known ht]
    exact h t s ht hs
  · have hout : (core.guarded domain known).ancestors t s = (.ok (known t), s) := if_neg ht
    rw [hout]
    exact ⟨rfl, hs⟩

/-! ## 4. Sessions that do not tell the two apart -/

/-- Core registries that answer alike what the innermost query asks make no difference to a turn. -/
theorem turn_congr {listener : Listener τ} {session : Session σ τ}
    (h : ∀ t next, layer.step session.top.query = .core t next →
      core.ancestors t session.world.core = core'.ancestors t session.world.core) :
    session.turn layer core listener = session.turn layer core' listener := by
  unfold Session.turn
  cases session.top.delivering with
  | some e => rfl
  | none =>
    cases hstep : layer.step session.top.query with
    | core t next => simp only [h t next hstep]
    | silent q => rfl
    | lookup t found miss => rfl
    | store t set q => rfl
    | answer set => rfl

/-- Sessions that go through the same turns come to the same. -/
theorem run_congr {listener : Listener τ} {P : Session σ τ → Prop}
    (hturn : ∀ session, P session →
      session.turn layer core listener = session.turn layer core' listener ∧
        ∀ next, session.turn layer core' listener = .ongoing next → P next) (turns : Nat) :
    ∀ {session : Session σ τ}, P session →
      session.run layer core listener turns = session.run layer core' listener turns := by
  induction turns with
  | zero => exact fun _ => rfl
  | succ turns ih =>
    intro session h
    obtain ⟨heq, hnext⟩ := hturn session h
    unfold Session.run
    rw [heq]
    cases hp : session.turn layer core' listener with
    | ended outcome world => rfl
    | ongoing next => exact ih (hnext next hp)

namespace Scene

variable {s s' final : Scene σ} {set : TypeSet}

/-- The session at a scene, with the event that is being delivered, if there is one. -/
def sessionAt (s : Scene σ) (t : TypeName) (log : List Note) (delivering : Option Event) :
    Session σ Watch :=
  ⟨⟨t, s.query, delivering⟩, [], s.world log⟩

/-- The turn of a move leads to the next scene, at which the event of the move is delivered. -/
theorem Moves.turn (hmove : s.Moves layer core s') (t : TypeName) (log : List Note) :
    ∃ e, (s.sessionAt t log none).turn layer core .hooks = .ongoing (s'.sessionAt t log e) := by
  cases hmove with
  | silent hstep =>
    refine ⟨none, ?_⟩
    simp only [Session.turn, sessionAt, hstep]
    rfl
  | @core u next set hstep hanswer =>
    refine ⟨(next set).2.map (⟨·, u⟩), ?_⟩
    simp only [Session.turn, sessionAt, world, hstep, hanswer]
    cases (next set).2 <;> rfl
  | @hit u found miss set hstep hset =>
    refine ⟨some ⟨.cacheHit, u⟩, ?_⟩
    have hget : (s.memo.get u).1 = some set := by rw [Memo.get_fst, hset]
    simp only [Session.turn, sessionAt, world, hstep, hget]
    rfl
  | @miss u found miss hstep hset =>
    refine ⟨some ⟨.cacheMiss, u⟩, ?_⟩
    have hget : (s.memo.get u).1 = none := by rw [Memo.get_fst, hset]
    simp only [Session.turn, sessionAt, world, hstep, hget]
    rfl
  | @store u set q hstep =>
    refine ⟨some ⟨.cacheStore, u⟩, ?_⟩
    simp only [Session.turn, sessionAt, world, hstep]
    rfl

/-- Where nothing that is known is told of as unknown, no move tells of it. -/
theorem Moves.heard_unknown (hcore : core.Settled valid known)
    (h : s.Good layer known given valid question) (hmove : s.Moves layer core s')
    (hheard : ∀ u, ⟨.coreUnknown, u⟩ ∈ s.heard → layer.space.contains u = true ∧ known u = ∅) :
    ∀ u, ⟨.coreUnknown, u⟩ ∈ s'.heard → layer.space.contains u = true ∧ known u = ∅ := by
  intro u hu
  cases hmove with
  | silent hstep => exact hheard u hu
  | @core t next set hstep hanswer =>
    rcases List.mem_append.mp hu with hnew | hold
    · obtain ⟨_, hc, hunknown⟩ := step_eq_core hstep
      cases (hcore t s.core h.core).1.symm.trans hanswer
      cases hevent : (next (known t)).2 with
      | none => simp [hevent] at hnew
      | some occasion =>
        simp only [hevent, Option.map_some, Option.toList_some, List.mem_singleton,
          Event.mk.injEq] at hnew
        obtain ⟨rfl, rfl⟩ := hnew
        exact ⟨hc, hunknown _ hevent⟩
    · exact hheard u hold
  | hit hstep hset => exact hheard u (by simpa using hu)
  | miss hstep hset => exact hheard u (by simpa using hu)
  | store hstep => exact hheard u (by simpa using hu)

/-- Over a memo that is right nothing is given. -/
theorem good_start_sound (question : Question) {memo : Memo} {state : σ}
    (hmemo : memo.Sound (layer.hierarchy known)) (hstate : valid state) :
    (start question memo state).Good layer known (fun _ => none) valid question :=
  ⟨hstate, hmemo, fun u set hu => absurd hu (by simp), good_activation question⟩

/-- The session with which a question begins. -/
theorem sessionAt_start (question : Question) (memo : Memo) (state : σ) (log : List Note) :
    (start question memo state).sessionAt question.activation.asked log none =
      ⟨question.activation, [], ⟨memo, state, { hooks := [], log := log }⟩⟩ := by
  cases question <;> rfl

/-- A session under guard goes from one scene that is right to the next. -/
theorem Good.turns (hcore : core.Settled valid known)
    (h : s.Good layer known given valid question) {t : TypeName} {log : List Note}
    {e : Option Event} {next : Session σ Watch}
    (hturn : (s.sessionAt t log e).turn layer core .hooks = .ongoing next) :
    ∃ (s' : Scene σ) (e' : Option Event), s'.Good layer known given valid question ∧
      next = s'.sessionAt t log e' := by
  cases e with
  | some e =>
    have hdelivered : (s.sessionAt t log (some e)).turn layer core .hooks =
        .ongoing (s.sessionAt t log none) := rfl
    rw [hdelivered] at hturn
    cases hturn
    exact ⟨s, none, h, rfl⟩
  | none =>
    rcases exists_moves hcore h with ⟨set, hanswer⟩ | ⟨s', hmove⟩
    · simp only [Session.turn, sessionAt, hanswer] at hturn
      cases hturn
    · obtain ⟨e', hmoved⟩ := hmove.turn t log
      rw [hmoved] at hturn
      cases hturn
      exact ⟨s', e', h.moves hcore hmove, rfl⟩

end Scene

/-! ## 5. Queries -/

variable {memo : Memo} {state : σ}

/-- What is not to be asked may as well be kept from being asked. -/
theorem query_guarded (hcore : core.SettledOn domain valid known)
    (hdomain : ∀ u, (layer.hierarchy known).Reaches question.activation.asked u → domain u)
    (hmemo : memo.Sound (layer.hierarchy known)) (hstate : valid state) (log : List Note) :
    layer.query core question ⟨memo, state, { hooks := [], log := log }⟩ =
      layer.query (core.guarded domain known) question
        ⟨memo, state, { hooks := [], log := log }⟩ := by
  have hturn : ∀ session : Session σ Watch,
      (∃ (s : Scene σ) (e : Option Event), s.Good layer known (fun _ => none) valid question ∧
        session = s.sessionAt question.activation.asked log e) →
      session.turn layer core .hooks = session.turn layer (core.guarded domain known) .hooks ∧
        ∀ next, session.turn layer (core.guarded domain known) .hooks = .ongoing next →
          ∃ (s : Scene σ) (e : Option Event), s.Good layer known (fun _ => none) valid question ∧
            next = s.sessionAt question.activation.asked log e := by
    rintro _ ⟨s, e, hs, rfl⟩
    refine ⟨turn_congr fun t next hstep => ?_, fun next hturn => hs.turns hcore.guarded hturn⟩
    exact (core.guarded_of known (hdomain t (asked_reached hs.query hstep)) _).symm
  have hrun := fun turns =>
    run_congr hturn turns ⟨_, none, Scene.good_start_sound question hmemo hstate, rfl⟩
  unfold Layer.query
  simp only [← Scene.sessionAt_start, hrun]
  rfl

/-- **A query that can reach few types is answered**, and rightly, if the core registry answers for
such types; the memo stays right, and no type is told of as unknown of which anything is known. -/
theorem query_local (hcore : core.SettledOn ((layer.hierarchy known).ReachesFew n) valid known)
    (hn : n ≤ layer.index.extent + core.extent)
    (hfew : (layer.hierarchy known).ReachesFew n question.activation.asked)
    (hmemo : memo.Sound (layer.hierarchy known)) (hstate : valid state) (log : List Note) :
    ∃ (set : TypeSet) (final : Scene σ),
      layer.query core question ⟨memo, state, { hooks := [], log := log }⟩ =
        (.ok set, final.world log) ∧
      question.Answers layer known (fun _ => none) set ∧
      final.Good layer known (fun _ => none) valid question ∧
      ∀ u, ⟨.coreUnknown, u⟩ ∈ final.heard → layer.space.contains u = true ∧ known u = ∅ := by
  obtain ⟨names, hlen, hcovered⟩ := exists_covered hfew
  have hguarded := hcore.guarded
  have hstart := Scene.good_start_sound question hmemo hstate
  have hbound : question.activation.query.turnsLeft (question.within names) ≤ layer.bound core :=
    turnsLeft_start_le (Nat.le_trans hlen hn) question
  obtain ⟨k, set, final, hends, hrun, _⟩ :=
    Scene.exists_ends hcovered hguarded question.activation.asked log _ hstart
      (Nat.le_add_right_of_le (k := 2) hbound)
  have hfinal := (hends.keeps (P := fun s => s.Good layer known (fun _ => none) valid question ∧
      ∀ u, ⟨.coreUnknown, u⟩ ∈ s.heard → layer.space.contains u = true ∧ known u = ∅)
    (fun s s' hs hmove => ⟨hs.1.moves hguarded hmove, hmove.heard_unknown hguarded hs.1 hs.2⟩)
    ⟨hstart, fun u hu => absurd hu (by simp [Scene.start])⟩).1
  refine ⟨set, final, ?_, (hends.answers hguarded hstart).2, hfinal⟩
  rw [query_guarded hcore (fun u hu => hfew.of_reaches hu) hmemo hstate]
  refine query_eq ?_
  simp only [List.length_nil, Nat.zero_add, Nat.one_mul, ← Scene.sessionAt_start]
  exact hrun

end Ancestry.Closure
