import Ancestry.Proofs.Session.Outcome

/-!
# Queries that nobody interferes with

A listener without hooks keeps a log and lets every query go on.  Then a session has one query under
way, from its first turn to its last, and nothing but this query writes to the memo.  A `Scene` is
what is left of such a session: the query, what it shares with others, and a record of what it has
done.  `Scene.Moves` says how a scene goes on, `Scene.Ends` how it comes to an end, and
`query_quiet` ties them to `Layer.query`.

The memo with which a query begins may hold anything.  What it holds is given, and the rest is right
with respect to that (`Scene.Good`).
-/

namespace Ancestry.Closure

variable {σ : Type} {layer : Layer} {known : TypeName → TypeSet}
  {given : TypeName → Option TypeSet} {question : Question} {core : Core σ} {valid : σ → Prop}
  {names : List TypeName} {set : TypeSet}

/-! ## 1. Core registries whose answers are settled -/

/-- In the states `valid`, which it does not leave, the core registry answers `known`. -/
def Core.Settled (core : Core σ) (valid : σ → Prop) (known : TypeName → TypeSet) : Prop :=
  ∀ t s, valid s → (core.ancestors t s).1 = .ok (known t) ∧ valid (core.ancestors t s).2

/-- To keep a list of the names that it is asked about changes nothing about a core registry. -/
theorem Core.Settled.recorded (h : core.Settled valid known) :
    core.recorded.Settled (fun s => valid s.1) known :=
  fun t s hs => h t s.1 hs

/-- A registry whose memos are right and whose hooks cut nothing short has its answers. -/
theorem Core.Faithful.settled {patient : σ → Prop} (hfaithful : core.Faithful valid known)
    (hsteady : core.Steady valid patient) :
    core.Settled (fun s => valid s ∧ patient s) known := by
  rintro t s ⟨hvalid, hpatient⟩
  obtain ⟨set, hset⟩ := hsteady.answers t s hvalid hpatient
  refine ⟨?_, hfaithful.keeps t s hvalid, hsteady.keeps t s hvalid hpatient⟩
  rw [hset, hfaithful.answers t s set hvalid hset]

/-! ## 2. Scenes -/

/-- A query with the memo and the core registry behind it, and what it has done so far: the types
about which it asked the core registry, the events that were heard of, and the sets that it stored,
each with the last one in front. -/
structure Scene (σ : Type) where
  query : Query
  memo : Memo
  core : σ
  asked : List TypeName := []
  heard : List Event := []
  stored : List (TypeName × TypeSet) := []

namespace Scene

variable {s s' final : Scene σ} {n : Nat}

/-- How a scene goes on, by one step of its query. -/
inductive Moves (layer : Layer) (core : Core σ) (s : Scene σ) : Scene σ → Prop
  | silent {q : Query} (hstep : layer.step s.query = .silent q) :
    Moves layer core s { s with query := q }
  | core {t : TypeName} {next : TypeSet → Query × Option Occasion} {set : TypeSet}
    (hstep : layer.step s.query = .core t next)
    (hanswer : (core.ancestors t s.core).1 = .ok set) :
    Moves layer core s
      { s with
        query := (next set).1
        core := (core.ancestors t s.core).2
        asked := t :: s.asked
        heard := ((next set).2.map (⟨·, t⟩)).toList ++ s.heard }
  | hit {t : TypeName} {found : TypeSet → Query} {miss : Query} {set : TypeSet}
    (hstep : layer.step s.query = .lookup t found miss) (hset : s.memo.peek? t = some set) :
    Moves layer core s
      { s with
        query := found set, memo := (s.memo.get t).2, heard := ⟨.cacheHit, t⟩ :: s.heard }
  | miss {t : TypeName} {found : TypeSet → Query} {miss : Query}
    (hstep : layer.step s.query = .lookup t found miss) (hset : s.memo.peek? t = none) :
    Moves layer core s
      { s with query := miss, memo := (s.memo.get t).2, heard := ⟨.cacheMiss, t⟩ :: s.heard }
  | store {t : TypeName} {set : TypeSet} {q : Query}
    (hstep : layer.step s.query = .store t set q) :
    Moves layer core s
      { s with
        query := q
        memo := s.memo.store t set
        heard := ⟨.cacheStore, t⟩ :: s.heard
        stored := (t, set) :: s.stored }

/-- After `n` moves the scene stands as `final`, and its query is answered with `set`. -/
inductive Ends (layer : Layer) (core : Core σ) : Nat → Scene σ → TypeSet → Scene σ → Prop
  | answer {s : Scene σ} {set : TypeSet} (hstep : layer.step s.query = .answer set) :
    Ends layer core 0 s set s
  | move {n : Nat} {s s' final : Scene σ} {set : TypeSet} (hmove : s.Moves layer core s')
    (hends : Ends layer core n s' set final) : Ends layer core (n + 1) s set final

/-- The scene becomes `final` by moves of the queries `past`, the first one in front. -/
inductive Passes (layer : Layer) (core : Core σ) : Scene σ → List Query → Scene σ → Prop
  | refl {s : Scene σ} : Passes layer core s [] s
  | move {past : List Query} {s s' final : Scene σ} (hmove : s.Moves layer core s')
    (hpasses : Passes layer core s' past final) : Passes layer core s (s.query :: past) final

/-- **What every move keeps of a scene and the queries before it** holds after all of them. -/
theorem Passes.keeps {P : List Query → Scene σ → Prop} {before past : List Query}
    (hmoves : ∀ before s s', P before s → s.Moves layer core s' → P (before ++ [s.query]) s')
    (h : s.Passes layer core past final) (hs : P before s) : P (before ++ past) final := by
  induction h generalizing before with
  | refl => exact (List.append_nil before).symm ▸ hs
  | @move past s s' final hmove _ ih =>
    have hrest := ih (hmoves before s s' hs hmove)
    rwa [List.append_assoc] at hrest

/-- **What every move keeps holds in the end.** -/
theorem Ends.keeps {P : Scene σ → Prop} (hmoves : ∀ s s', P s → s.Moves layer core s' → P s')
    (h : s.Ends layer core n set final) (hs : P s) :
    P final ∧ layer.step final.query = .answer set := by
  induction h with
  | answer hstep => exact ⟨hs, hstep⟩
  | move hmove _ ih => exact ih (hmoves _ _ hs hmove)

/-- A scene goes on in one way only. -/
theorem Moves.unique {s'' : Scene σ} (h : s.Moves layer core s') (h' : s.Moves layer core s'') :
    s' = s'' := by
  cases h <;> cases h' <;> simp_all

/-- A scene ends in one way only. -/
theorem Ends.unique {n' : Nat} {set' : TypeSet} {final' : Scene σ}
    (h : s.Ends layer core n set final) (h' : s.Ends layer core n' set' final') :
    n = n' ∧ set = set' ∧ final = final' := by
  induction h generalizing n' with
  | answer hstep =>
    cases h' with
    | answer hstep' =>
      cases hstep.symm.trans hstep'
      exact ⟨rfl, rfl, rfl⟩
    | move hmove _ => cases hmove <;> simp_all
  | move hmove _ ih =>
    cases h' with
    | answer hstep' => cases hmove <;> simp_all
    | move hmove' hends' =>
      cases hmove.unique hmove'
      obtain ⟨rfl, rfl, rfl⟩ := ih hends'
      exact ⟨rfl, rfl, rfl⟩

theorem Ends.done {set' : TypeSet} (h : s.Ends layer core n set final)
    (hstep : layer.step s.query = .answer set') : set = set' ∧ final = s := by
  obtain ⟨_, hset, hfinal⟩ := h.unique (.answer hstep)
  exact ⟨hset, hfinal⟩

/-- Where there is a move, the end is one move further away. -/
theorem Ends.next (h : s.Ends layer core n set final) (hmove : s.Moves layer core s') :
    ∃ n', n = n' + 1 ∧ s'.Ends layer core n' set final := by
  cases h with
  | answer hstep => cases hmove <;> simp_all
  | move hmove' hends =>
    cases hmove.unique hmove'
    exact ⟨_, rfl, hends⟩

/-- The list of names that a recording core registry keeps is what the scene says of it. -/
theorem Ends.recorded {s final : Scene (σ × List TypeName)}
    (h : s.Ends layer core.recorded n set final) (before : List TypeName)
    (hs : s.core.2 = s.asked ++ before) :
    final.core.2 = final.asked ++ before := by
  refine (h.keeps (P := fun s => s.core.2 = s.asked ++ before) ?_ hs).1
  intro s s' hs hmove
  cases hmove with
  | core hstep hanswer => exact congrArg (_ :: ·) hs
  | silent hstep => exact hs
  | hit hstep hset => exact hs
  | miss hstep hset => exact hs
  | store hstep => exact hs

/-! ## 3. Scenes that are right -/

/-- The query is on the way to its answer, what the memo was given is still in it, and its other
sets are right. -/
structure Good (layer : Layer) (known : TypeName → TypeSet) (given : TypeName → Option TypeSet)
    (valid : σ → Prop) (question : Question) (s : Scene σ) : Prop where
  core : valid s.core
  memo : s.memo.Sound (layer.hierarchy known given)
  keeps : ∀ t set, given t = some set → s.memo.peek? t = some set
  query : s.query.Good layer known given s.memo.Has question

/-- A type that is not in the memo was not given in the beginning either. -/
theorem Good.given_eq_none {t : TypeName} (h : s.Good layer known given valid question)
    (ht : s.memo.peek? t = none) : given t = none := by
  cases hg : given t with
  | none => rfl
  | some set => exact absurd (ht.symm.trans (h.keeps t set hg)) (by simp)

/-- **Every move is right.** -/
theorem Good.moves (hcore : core.Settled valid known)
    (h : s.Good layer known given valid question) (hmove : s.Moves layer core s') :
    s'.Good layer known given valid question := by
  have hstep := step_good h.query
  cases hmove with
  | silent hq =>
    rw [hq] at hstep
    exact ⟨h.core, h.memo, h.keeps, hstep⟩
  | @core t next set hq hanswer =>
    rw [hq] at hstep
    obtain ⟨hknown, hvalid⟩ := hcore t s.core h.core
    cases hknown.symm.trans hanswer
    exact ⟨hvalid, h.memo, h.keeps, hstep⟩
  | @hit t found miss set hq hset =>
    rw [hq] at hstep
    have hgrows : s.memo.Grows (s.memo.get t).2 := Memo.grows_get
    exact ⟨h.core, h.memo.get, fun u v hu => hgrows u v (h.keeps u v hu),
      (hstep.1 set ⟨set, hset⟩ (h.memo t set hset)).mono hgrows.has⟩
  | @miss t found miss hq hset =>
    rw [hq] at hstep
    have hgrows : s.memo.Grows (s.memo.get t).2 := Memo.grows_get
    exact ⟨h.core, h.memo.get, fun u v hu => hgrows u v (h.keeps u v hu),
      (hstep.2 (h.given_eq_none hset)).mono hgrows.has⟩
  | @store t set q hq =>
    rw [hq] at hstep
    obtain ⟨hset, _, _, hnext⟩ := hstep
    have hgrows := h.memo.grows_store hset
    exact ⟨h.core, h.memo.store hset, fun u v hu => hgrows u v (h.keeps u v hu),
      hnext _ hgrows.has Memo.has_store⟩

/-- What a scene that is right ends with answers its question. -/
theorem Ends.answers (hcore : core.Settled valid known)
    (h : s.Ends layer core n set final) (hs : s.Good layer known given valid question) :
    final.Good layer known given valid question ∧
      question.Answers layer known given set := by
  obtain ⟨hfinal, hstep⟩ := h.keeps (fun _ _ hs hmove => hs.moves hcore hmove) hs
  have hgood := step_good hfinal.query
  rw [hstep] at hgood
  exact ⟨hfinal, hgood.1⟩

/-- The scene at which a question is put to a memo and a core registry. -/
def start (question : Question) (memo : Memo) (state : σ) : Scene σ :=
  { query := question.activation.query, memo := memo, core := state }

/-- A memo is right with respect to what is in it. -/
theorem sound_given (memo : Memo) : memo.Sound (layer.hierarchy known memo.peek?) := by
  intro t set ht x
  constructor
  · exact fun hx => .given ht hx
  · intro hx
    cases hx with
    | given hu hx =>
      cases ht.symm.trans hu
      exact hx
    | self hu _ => exact absurd (ht.symm.trans hu) (by simp)
    | above hu _ => exact absurd (ht.symm.trans hu.1) (by simp)

/-- **A question may be put to any memo.**  What is in it is given. -/
theorem good_start (question : Question) (memo : Memo) {state : σ} (hstate : valid state) :
    (start question memo state).Good layer known memo.peek? valid question :=
  ⟨hstate, sound_given memo, fun _ _ ht => ht, good_activation question⟩

/-- The scene at which a walk from `t` begins, after the lookup that did not find it. -/
def atEntry (t : TypeName) (memo : Memo) (state : σ) (before : List TypeName) : Scene σ :=
  { query := ⟨.enter t, .empty⟩
    memo := (memo.get t).2
    core := state
    asked := before
    heard := [⟨.cacheMiss, t⟩] }

theorem good_atEntry {memo : Memo} {state : σ} {t : TypeName} {before : List TypeName}
    (hstate : valid state) (ht : question.Seeks layer known t) (hnew : memo.peek? t = none) :
    (atEntry t memo state before).Good layer known memo.peek? valid question := by
  refine ⟨hstate, (sound_given memo).get, fun u v hu => ?_, .of_empty ?_⟩
  · simpa [atEntry] using hu
  · exact ⟨t, [], ht, Walk.sound_empty t, by simp [Walk.empty], hnew, fun _ => rfl⟩

/-! ## 4. A question for the ancestors of a type -/

/-- The types about which a question for the ancestors of `t` asks the core registry first. -/
def asksFirst (layer : Layer) (t : TypeName) : List TypeName :=
  if layer.space.contains t then [t] else []

variable {memo : Memo} {state : σ} {t : TypeName}

/-- For a core type the core registry is asked, and if it knows something that is the answer. -/
theorem step_ask (hc : layer.space.contains t = true) (w : Walk) :
    layer.step ⟨.ask t, w⟩ = .core t fun set =>
      if set.isEmpty then (⟨.consult t, w⟩, none) else (⟨.answer set, w⟩, some .coreHit) := by
  simp [Layer.step, hc]

/-- What the core registry knows of a core type is the answer, and nothing else happens. -/
theorem Ends.at_once (hcore : core.Settled valid known) (hstate : valid state)
    (hat : layer.AnswersAtOnce known t)
    (h : (start (.ancestors t) memo state).Ends layer core n set final) :
    set = known t ∧ final.memo = memo ∧ final.asked = [t] ∧ final.heard = [⟨.coreHit, t⟩] := by
  have hmove := Moves.core (s := start (.ancestors t) memo state) (step_ask hat.1 .empty)
    (hcore t state hstate).1
  have hne : (known t).isEmpty = false := by
    simpa [Bool.eq_false_iff, Std.ExtTreeSet.isEmpty_iff] using hat.2
  rw [hne] at hmove
  obtain ⟨_, _, hends⟩ := h.next hmove
  obtain ⟨rfl, rfl⟩ := hends.done rfl
  exact ⟨rfl, rfl, rfl, rfl⟩

/-- A type for which the core registry does not answer at once is looked up. -/
theorem Ends.consults (hcore : core.Settled valid known) (hstate : valid state)
    (hat : ¬ layer.AnswersAtOnce known t)
    (h : (start (.ancestors t) memo state).Ends layer core n set final) :
    ∃ n' state', valid state' ∧
      Ends layer core n'
        { query := ⟨.consult t, .empty⟩, memo := memo, core := state', asked := asksFirst layer t }
        set final := by
  unfold asksFirst
  cases hc : layer.space.contains t with
  | true =>
    have hmove := Moves.core (s := start (.ancestors t) memo state) (step_ask hc .empty)
      (hcore t state hstate).1
    have hempty : (known t).isEmpty = true := by
      rw [Std.ExtTreeSet.isEmpty_iff]
      exact Classical.byContradiction fun hne => hat ⟨hc, hne⟩
    rw [hempty] at hmove
    obtain ⟨n', _, hends⟩ := h.next hmove
    exact ⟨n', _, (hcore t state hstate).2, hends⟩
  | false =>
    have hstep : layer.step (start (.ancestors t) memo state).query =
        .silent ⟨.consult t, .empty⟩ := by
      simp [start, Question.activation, Activation.ancestors, Layer.step, hc]
    obtain ⟨n', _, hends⟩ := h.next (.silent hstep)
    exact ⟨n', state, hstate, hends⟩

/-- What is in the memo is the answer, with one hit. -/
theorem Ends.looked_up {before : List TypeName} {found : TypeSet}
    (ht : memo.peek? t = some found)
    (h : Ends layer core n
      { query := ⟨.consult t, .empty⟩, memo := memo, core := state, asked := before } set final) :
    set = found ∧ final.memo = { memo with hits := memo.hits + 1 } ∧ final.asked = before ∧
      final.heard = [⟨.cacheHit, t⟩] := by
  obtain ⟨_, _, hends⟩ := h.next (.hit rfl ht)
  obtain ⟨rfl, rfl⟩ := hends.done rfl
  exact ⟨rfl, Memo.get_of_some ht, rfl, rfl⟩

/-- What is not is walked from, after one miss. -/
theorem Ends.not_found {before : List TypeName} (ht : memo.peek? t = none)
    (h : Ends layer core n
      { query := ⟨.consult t, .empty⟩, memo := memo, core := state, asked := before } set final) :
    ∃ n', (atEntry t memo state before).Ends layer core n' set final := by
  obtain ⟨n', _, hends⟩ := h.next (.miss rfl ht)
  exact ⟨n', hends⟩

end Scene

/-! ## 5. Scenes and sessions -/

/-- The sets that a session stores in the memo within a number of turns, the first one in front. -/
def Session.writes {τ : Type} (layer : Layer) (core : Core σ) (listener : Listener τ) :
    Nat → Session σ τ → List (TypeName × TypeSet)
  | 0, _ => []
  | turns + 1, session =>
    let written :=
      match session.top.delivering, layer.step session.top.query with
      | none, .store t set _ => [(t, set)]
      | _, _ => []
    match session.turn layer core listener with
    | .ongoing next => written ++ writes layer core listener turns next
    | .ended _ _ => written

/-- The queries that take the steps of a session within a number of turns, the first one in
front. -/
def Session.steps {τ : Type} (layer : Layer) (core : Core σ) (listener : Listener τ) :
    Nat → Session σ τ → List Query
  | 0, _ => []
  | turns + 1, session =>
    let taken :=
      match session.top.delivering with
      | none => [session.top.query]
      | some _ => []
    match session.turn layer core listener with
    | .ongoing next => taken ++ steps layer core listener turns next
    | .ended _ _ => taken

namespace Scene

variable {s s' final : Scene σ} {n : Nat}

/-- What the queries of the layer share at a scene, where the log is `log` before it began. -/
def world (s : Scene σ) (log : List Note) : World σ Watch :=
  ⟨s.memo, s.core, { hooks := [], log := s.heard.map .event ++ log }⟩

/-- The session at a scene: a query about `t`, and nothing else. -/
def session (s : Scene σ) (t : TypeName) (log : List Note) : Session σ Watch :=
  ⟨⟨t, s.query, none⟩, [], s.world log⟩

/-- A move is as many turns of the session as the step of its query takes, what it stores is what
the session writes, and its query is the one that takes a step. -/
theorem Moves.turns (hnames : question.Covered layer known given names)
    (hcore : core.Settled valid known) (h : s.Good layer known given valid question)
    (hmove : s.Moves layer core s') (t : TypeName) (log : List Note) :
    ∃ k, 1 ≤ k ∧ s'.query.turnsLeft names + k ≤ s.query.turnsLeft names ∧
      ∀ turns, (s.session t log).run layer core .hooks (turns + k) =
          (s'.session t log).run layer core .hooks turns ∧
        s.stored.reverse ++ (s.session t log).writes layer core .hooks (turns + k) =
          s'.stored.reverse ++ (s'.session t log).writes layer core .hooks turns ∧
        (s.session t log).steps layer core .hooks (turns + k) =
          s.query :: (s'.session t log).steps layer core .hooks turns := by
  have hwithin := step_within hnames h.query
  cases hmove with
  | silent hq =>
    rw [hq] at hwithin
    refine ⟨1, Nat.le_refl 1, hwithin, fun turns => ?_⟩
    simp only [Session.run, Session.writes, Session.steps, session, Session.turn, hq]
    exact ⟨rfl, rfl, rfl⟩
  | @core u next set hq hanswer =>
    rw [hq] at hwithin
    cases (hcore u s.core h.core).1.symm.trans hanswer
    cases hevent : (next (known u)).2 with
    | none =>
      refine ⟨1, Nat.le_refl 1, Nat.le_of_succ_le hwithin, fun turns => ?_⟩
      simp only [Session.run, Session.writes, Session.steps, session, world, Session.turn, hq,
        hanswer, hevent]
      exact ⟨rfl, rfl, rfl⟩
    | some occasion =>
      refine ⟨2, Nat.le_succ 1, hwithin, fun turns => ?_⟩
      simp only [Session.run, Session.writes, Session.steps, session, world, Session.turn, hq,
        hanswer, hevent]
      exact ⟨rfl, rfl, rfl⟩
  | @hit u found miss set hq hset =>
    rw [hq] at hwithin
    refine ⟨2, Nat.le_succ 1, hwithin.1 set, fun turns => ?_⟩
    have hget : (s.memo.get u).1 = some set := by rw [Memo.get_fst, hset]
    simp only [Session.run, Session.writes, Session.steps, session, world, Session.turn, hq, hget]
    exact ⟨rfl, rfl, rfl⟩
  | @miss u found miss hq hset =>
    rw [hq] at hwithin
    refine ⟨2, Nat.le_succ 1, hwithin.2, fun turns => ?_⟩
    have hget : (s.memo.get u).1 = none := by rw [Memo.get_fst, hset]
    simp only [Session.run, Session.writes, Session.steps, session, world, Session.turn, hq, hget]
    exact ⟨rfl, rfl, rfl⟩
  | @store u set q hq =>
    rw [hq] at hwithin
    refine ⟨2, Nat.le_succ 1, hwithin, fun turns => ?_⟩
    simp only [Session.run, Session.writes, Session.steps, session, world, Session.turn, hq,
      List.reverse_cons]
    exact ⟨rfl, (List.append_assoc ..).symm, rfl⟩

/-- A scene that is right goes on until its query is answered. -/
theorem exists_moves (hcore : core.Settled valid known)
    (h : s.Good layer known given valid question) :
    (∃ set, layer.step s.query = .answer set) ∨ ∃ s', s.Moves layer core s' := by
  cases hq : layer.step s.query with
  | silent q => exact .inr ⟨_, .silent hq⟩
  | core t next => exact .inr ⟨_, .core hq (hcore t s.core h.core).1⟩
  | lookup t found miss =>
    cases hset : s.memo.peek? t with
    | none => exact .inr ⟨_, .miss hq hset⟩
    | some set => exact .inr ⟨_, .hit hq hset⟩
  | store t set q => exact .inr ⟨_, .store hq⟩
  | answer set => exact .inl ⟨set, rfl⟩

/-- **A scene that is right ends**, and the session ends with it, if it is given the turns that the
query needs.  The scene has kept a list of what the session has written, and the steps of the
session are those of the queries that the scene has passed. -/
theorem exists_passes (hnames : question.Covered layer known given names)
    (hcore : core.Settled valid known) (t : TypeName) (log : List Note) (turns : Nat) :
    ∀ {s : Scene σ}, s.Good layer known given valid question →
      s.query.turnsLeft names ≤ turns →
        ∃ n set final past, s.Ends layer core n set final ∧ s.Passes layer core past final ∧
          (s.session t log).run layer core .hooks turns = .ended (.ok set) (final.world log) ∧
          s.stored.reverse ++ (s.session t log).writes layer core .hooks turns =
            final.stored.reverse ∧
          (s.session t log).steps layer core .hooks turns = past ++ [final.query] := by
  induction turns using Nat.strongRecOn with
  | ind turns ih =>
    intro s h hle
    rcases exists_moves hcore h with ⟨set, hq⟩ | ⟨s', hmove⟩
    · obtain ⟨turns, rfl⟩ := Nat.exists_eq_add_of_le' (Nat.le_trans one_le_turnsLeft hle)
      refine ⟨0, set, s, [], .answer hq, .refl, ?_⟩
      simp only [Session.run, Session.writes, Session.steps, session, Session.turn, hq]
      exact ⟨rfl, List.append_nil _, rfl⟩
    · obtain ⟨k, hk, hcost, hrun⟩ := hmove.turns hnames hcore h t log
      obtain ⟨rest, rfl⟩ := Nat.exists_eq_add_of_le' (show k ≤ turns by omega)
      obtain ⟨n, set, final, past, hends, hpasses, hended, hwrites, hsteps⟩ :=
        ih rest (by omega) (h.moves hcore hmove) (by omega)
      obtain ⟨hrun, hwritten, hstep⟩ := hrun rest
      exact ⟨n + 1, set, final, s.query :: past, .move hmove hends, .move hmove hpasses,
        hrun.trans hended, hwritten.trans hwrites, hstep.trans (congrArg (s.query :: ·) hsteps)⟩

/-- **Every right scene comes to its end**, in no more turns than there are left, and the run of a
session shows it. -/
theorem exists_ends (hnames : question.Covered layer known given names)
    (hcore : core.Settled valid known) (t : TypeName) (log : List Note) (turns : Nat) :
    ∀ {s : Scene σ}, s.Good layer known given valid question →
      s.query.turnsLeft names ≤ turns →
        ∃ n set final, s.Ends layer core n set final ∧
          (s.session t log).run layer core .hooks turns = .ended (.ok set) (final.world log) ∧
          s.stored.reverse ++ (s.session t log).writes layer core .hooks turns =
            final.stored.reverse := by
  intro s h hle
  obtain ⟨n, set, final, _, hends, _, hrun, hwrites, _⟩ :=
    exists_passes hnames hcore t log turns h hle
  exact ⟨n, set, final, hends, hrun, hwrites⟩

end Scene

/-- The names that a question can come by, the one that is asked about in front and twice. -/
def Question.within (question : Question) (names : List TypeName) : List TypeName :=
  question.activation.asked :: question.activation.asked :: names

/-- Names that span the layer cover every question, with the type that was asked for. -/
theorem Layer.Spans.covers (hnames : layer.Spans known names) (question : Question) :
    question.Covered layer known given (question.within names) := by
  refine ⟨fun u hu => ?_, fun u hu s hs => ?_⟩
  · cases question with
    | ancestors v => exact hu.1 ▸ List.mem_cons_self
    | closure v => exact (show v = u from hu) ▸ List.mem_cons_self
    | supertypes v => exact absurd hu not_false
  · rcases hnames u s hs with rfl | hs
    · exact hu
    · exact List.mem_cons_of_mem _ (List.mem_cons_of_mem _ hs)

/-- A query has at most as many turns as the bound says. -/
theorem turnsLeft_start_le (hlen : names.length ≤ layer.index.extent + core.extent)
    (question : Question) :
    question.activation.query.turnsLeft (question.within names) ≤ layer.bound core := by
  have hact := turnsLeft_activation_le (question.activation.asked :: names) question
  have hbound := turnsOf_le_bound (t := question.activation.asked) hlen
  have hquery : question.activation.turnsLeft (question.activation.asked :: names) =
      question.activation.query.turnsLeft (question.within names) := by
    cases question <;> rfl
  rw [hquery] at hact
  exact Nat.le_trans hact hbound

/-- **What a layer without hooks says is what the scene ends with.** -/
theorem query_quiet (hnames : layer.Spans known names)
    (hlen : names.length ≤ layer.index.extent + core.extent) (hcore : core.Settled valid known)
    (question : Question) (memo : Memo) {state : σ} (hstate : valid state) (log : List Note) :
    ∃ n set final, (Scene.start question memo state).Ends layer core n set final ∧
      layer.query core question ⟨memo, state, { hooks := [], log := log }⟩ =
        (.ok set, final.world log) := by
  have hturns := Nat.le_add_right_of_le (k := 2) (turnsLeft_start_le hlen question)
  obtain ⟨n, set, final, hends, hrun, _⟩ := Scene.exists_ends (hnames.covers question) hcore
    question.activation.asked log _ (Scene.good_start question memo hstate) hturns
  refine ⟨n, set, final, hends, query_eq ?_⟩
  have hsession : (⟨question.activation, [], ⟨memo, state, { hooks := [], log := log }⟩⟩ :
      Session σ Watch) =
        (Scene.start question memo state).session question.activation.asked log := by
    cases question <;> rfl
  simp only [List.length_nil, Nat.zero_add, Nat.one_mul, hsession]
  exact hrun

end Ancestry.Closure
