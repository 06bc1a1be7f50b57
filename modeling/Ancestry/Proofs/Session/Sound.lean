import Ancestry.Proofs.Memo
import Ancestry.Proofs.Query.Sound

/-!
# Sessions under any listener

A listener may cut a query short at any event and may ask queries of its own in the middle of one,
to any depth.  None of this can put a wrong set into the memo: `Session.Sound` says that all sets
in the memo are right and that every query under way is on the way to its answer, and each turn
keeps it (`turn_sound`), whatever the listener does.  What the memo has is never taken out of it or
replaced by another set.

The core registry may have a state and listeners of its own.  `Core.Faithful` asks of it only that
the answers which it does give do not depend on its state.
-/

namespace Ancestry.Closure

variable {σ τ : Type} {layer : Layer} {known : TypeName → TypeSet} {question : Question}
  {core : Core σ} {valid : σ → Prop} {listener : Listener τ} {session : Session σ τ}
  {memo memo' : Memo}

/-! ## 1. What is true of a session -/

/-- In the states `valid`, which it does not leave, the core registry answers `known` or cuts the
query short. -/
structure Core.Faithful (core : Core σ) (valid : σ → Prop) (known : TypeName → TypeSet) :
    Prop where
  answers : ∀ t s set, valid s → (core.ancestors t s).1 = .ok set → set = known t
  keeps : ∀ t s, valid s → valid (core.ancestors t s).2

/-- The question of the query `top`, which is the outermost one or was asked by the listener. -/
def questionOf (question : Question) (top : Activation) : List Activation → Question
  | [] => question
  | _ :: _ => .ancestors top.asked

/-- The question that a query is to answer depends on nothing of it but what it was asked for. -/
theorem questionOf_eq {top top' : Activation} {rest : List Activation}
    (h : top'.asked = top.asked) :
    questionOf question top' rest = questionOf question top rest := by
  cases rest with
  | nil => rfl
  | cons _ _ => exact congrArg Question.ancestors h

/-- All queries under way are on the way to their answers, the outermost one to that of
`question`. -/
def Underway (layer : Layer) (known : TypeName → TypeSet) (memo : Memo) (question : Question) :
    List Activation → Prop
  | [] => True
  | top :: rest =>
    top.query.Good layer known (fun _ => none) memo.Has (questionOf question top rest) ∧
      Underway layer known memo question rest

/-- All sets in the memo are right, and the core registry is in a valid state. -/
structure World.Sound (layer : Layer) (known : TypeName → TypeSet) (valid : σ → Prop)
    (world : World σ τ) : Prop where
  memo : world.memo.Sound (layer.hierarchy known)
  core : valid world.core

/-- A session whose memo is right and whose queries are on their way. -/
structure Session.Sound (layer : Layer) (known : TypeName → TypeSet) (valid : σ → Prop)
    (question : Question) (session : Session σ τ) : Prop where
  world : session.world.Sound layer known valid
  underway : Underway layer known session.world.memo question (session.top :: session.rest)

/-- Where a session stands when its memo is right, and its answer too, if it has ended with one. -/
def Progress.Sound (layer : Layer) (known : TypeName → TypeSet) (valid : σ → Prop)
    (question : Question) : Progress σ τ → Prop
  | .ongoing session => session.Sound layer known valid question
  | .ended outcome world => world.Sound layer known valid ∧
      ∀ set, outcome = .ok set → question.Answers layer known (fun _ => none) set

/-- What the queries of the layer share, as a session stands. -/
def Progress.world : Progress σ τ → World σ τ
  | .ongoing session => session.world
  | .ended _ world => world

/-- Queries that wait are still on their way when the memo has grown. -/
theorem Underway.mono (hgrows : memo.Grows memo') : ∀ {acts : List Activation},
    Underway layer known memo question acts → Underway layer known memo' question acts
  | [], _ => trivial
  | _ :: _, h => ⟨h.1.mono hgrows.has, h.2.mono hgrows⟩

/-- A question put to a sound world begins a sound session. -/
theorem Session.sound_begin (question : Question) {world : World σ τ}
    (h : world.Sound layer known valid) :
    Session.Sound layer known valid question ⟨question.activation, [], world⟩ :=
  ⟨h, good_activation question, trivial⟩

/-! ## 2. The parts of a turn -/

/-- A world stays sound when its core registry is asked, and when its memo is replaced by one that
is right. -/
theorem World.Sound.set_core {world : World σ τ} (h : world.Sound layer known valid)
    (hcore : core.Faithful valid known) (t : TypeName) :
    World.Sound layer known valid
      { world with core := (core.ancestors t world.core).2 } :=
  ⟨h.memo, hcore.keeps t world.core h.core⟩

theorem World.Sound.set_memo {world : World σ τ} (h : world.Sound layer known valid)
    (hmemo : memo.Sound (layer.hierarchy known)) :
    World.Sound layer known valid { world with memo := memo } :=
  ⟨hmemo, h.core⟩

/-- A query goes on its way with an event to be told, or without one. -/
theorem announce_sound (listener : Listener τ) {world : World σ τ} {q : Query}
    (event : Option Event)
    (hworld : world.Sound layer known valid)
    (hq : q.Good layer known (fun _ => none) world.memo.Has
      (questionOf question session.top session.rest))
    (hrest : Underway layer known world.memo question session.rest) :
    (session.announce listener world q event).Sound layer known valid question ∧
      (session.announce listener world q event).world.memo = world.memo := by
  have hunder : ∀ top : Activation, top.asked = session.top.asked → top.query = q →
      Underway layer known world.memo question (top :: session.rest) := by
    rintro top hasked rfl
    exact ⟨questionOf_eq hasked ▸ hq, hrest⟩
  cases event with
  | none => exact ⟨⟨hworld, hunder _ rfl rfl⟩, rfl⟩
  | some e => exact ⟨⟨⟨hworld.memo, hworld.core⟩, hunder _ rfl rfl⟩, rfl⟩

/-- A query that is over has the answer to its question, and the one that waited for it goes on. -/
theorem conclude_sound (listener : Listener τ) {world : World σ τ} (outcome : Outcome)
    (hworld : world.Sound layer known valid)
    (houtcome : ∀ set, outcome = .ok set →
      (questionOf question session.top session.rest).Answers layer known (fun _ => none) set)
    (hrest : Underway layer known world.memo question session.rest) :
    (session.conclude listener world outcome).Sound layer known valid question ∧
      (session.conclude listener world outcome).world.memo = world.memo := by
  unfold Session.conclude
  cases hr : session.rest with
  | nil =>
    rw [hr] at houtcome
    exact ⟨⟨hworld, houtcome⟩, rfl⟩
  | cons outer rest =>
    rw [hr] at hrest
    exact ⟨⟨⟨hworld.memo, hworld.core⟩, hrest⟩, rfl⟩

/-- Telling the listener of an event changes nothing that is known, whether the listener asks a
question, raises an error or does neither. -/
theorem deliver_sound (listener : Listener τ) (e : Event)
    (h : session.Sound layer known valid question) :
    (session.deliver listener e).Sound layer known valid question ∧
      (session.deliver listener e).world.memo = session.world.memo := by
  unfold Session.deliver
  have hworld : ∀ m : τ, World.Sound layer known valid { session.world with listener := m } :=
    fun m => ⟨h.world.memo, h.world.core⟩
  rcases listener.act e session.world.listener with ⟨choice, m⟩
  cases choice with
  | resume =>
    obtain ⟨hgood, hrest⟩ := h.underway
    have hasked : questionOf question { session.top with delivering := none } session.rest =
        questionOf question session.top session.rest := questionOf_eq rfl
    rw [← hasked] at hgood
    exact ⟨⟨hworld m, hgood, hrest⟩, rfl⟩
  | query t => exact ⟨⟨hworld m, .of_empty ⟨rfl, rfl⟩, h.underway⟩, rfl⟩
  | cutShort e' =>
    exact conclude_sound listener _ (hworld m) (fun set hset => absurd hset (by simp)) h.underway.2

/-! ## 3. The turn -/

/-- What a turn can do: the delivery under way continues, or else the innermost query takes a
step of one of these kinds. -/
inductive Session.Turn (layer : Layer) (core : Core σ) (listener : Listener τ)
    (session : Session σ τ) : Progress σ τ → Prop
  | deliver {e : Event} (hd : session.top.delivering = some e) :
    Turn layer core listener session (session.deliver listener e)
  | silent {q : Query} (hd : session.top.delivering = none)
    (hstep : layer.step session.top.query = .silent q) :
    Turn layer core listener session (session.announce listener session.world q none)
  | core {t : TypeName} {next : TypeSet → Query × Option Occasion} {set : TypeSet}
    (hd : session.top.delivering = none) (hstep : layer.step session.top.query = .core t next)
    (hanswer : (core.ancestors t session.world.core).1 = .ok set) :
    Turn layer core listener session (session.announce listener
      { session.world with core := (core.ancestors t session.world.core).2 } (next set).1
      ((next set).2.map (⟨·, t⟩)))
  | fail {t : TypeName} {next : TypeSet → Query × Option Occasion} {e : Event}
    (hd : session.top.delivering = none) (hstep : layer.step session.top.query = .core t next)
    (hanswer : (core.ancestors t session.world.core).1 = .error e) :
    Turn layer core listener session (session.conclude listener
      { session.world with core := (core.ancestors t session.world.core).2 } (.error e))
  | hit {t : TypeName} {found : TypeSet → Query} {miss : Query} {set : TypeSet}
    (hd : session.top.delivering = none)
    (hstep : layer.step session.top.query = .lookup t found miss)
    (hset : session.world.memo.peek? t = some set) :
    Turn layer core listener session (session.announce listener
      { session.world with memo := (session.world.memo.get t).2 } (found set)
      (some ⟨.cacheHit, t⟩))
  | miss {t : TypeName} {found : TypeSet → Query} {miss : Query}
    (hd : session.top.delivering = none)
    (hstep : layer.step session.top.query = .lookup t found miss)
    (hset : session.world.memo.peek? t = none) :
    Turn layer core listener session (session.announce listener
      { session.world with memo := (session.world.memo.get t).2 } miss (some ⟨.cacheMiss, t⟩))
  | store {t : TypeName} {set : TypeSet} {q : Query} (hd : session.top.delivering = none)
    (hstep : layer.step session.top.query = .store t set q) :
    Turn layer core listener session (session.announce listener
      { session.world with memo := session.world.memo.store t set } q (some ⟨.cacheStore, t⟩))
  | answer {set : TypeSet} (hd : session.top.delivering = none)
    (hstep : layer.step session.top.query = .answer set) :
    Turn layer core listener session (session.conclude listener session.world (.ok set))

/-- A turn is of one of these kinds. -/
theorem turn_turn (layer : Layer) (core : Core σ) (listener : Listener τ)
    (session : Session σ τ) :
    session.Turn layer core listener (session.turn layer core listener) := by
  unfold Session.turn
  cases hd : session.top.delivering with
  | some e => exact .deliver hd
  | none =>
    cases hstep : layer.step session.top.query with
    | silent q => exact .silent hd hstep
    | core t next =>
      dsimp only
      split
      · next set hanswer => exact .core hd hstep hanswer
      · next e hanswer => exact .fail hd hstep hanswer
    | lookup t found miss =>
      dsimp only
      split
      · next set hset => exact .hit hd hstep (Memo.get_fst _ t ▸ hset)
      · next hset => exact .miss hd hstep (Memo.get_fst _ t ▸ hset)
    | store t set q => exact .store hd hstep
    | answer set => exact .answer hd hstep

/-- A session takes its turn in one way only. -/
theorem Session.Turn.turn_eq {progress : Progress σ τ}
    (h : session.Turn layer core listener progress) :
    session.turn layer core listener = progress := by
  cases h with
  | deliver hd => simp only [Session.turn, hd]
  | silent hd hstep => simp only [Session.turn, hd, hstep]
  | core hd hstep hanswer => simp only [Session.turn, hd, hstep, hanswer]
  | fail hd hstep hanswer => simp only [Session.turn, hd, hstep, hanswer]
  | hit hd hstep hset => simp only [Session.turn, hd, hstep, Memo.get_fst, hset]
  | miss hd hstep hset => simp only [Session.turn, hd, hstep, Memo.get_fst, hset]
  | store hd hstep => simp only [Session.turn, hd, hstep]
  | answer hd hstep => simp only [Session.turn, hd, hstep]

/-- **Every turn keeps the memo right and the queries on their way**, and takes nothing out of the
memo. -/
theorem turn_sound {progress : Progress σ τ} (hcore : core.Faithful valid known)
    (h : session.Sound layer known valid question)
    (hturn : session.Turn layer core listener progress) :
    progress.Sound layer known valid question ∧
      session.world.memo.Grows progress.world.memo := by
  obtain ⟨hworld, hgood, hrest⟩ := h
  have hstep := step_good hgood
  cases hturn with
  | @deliver e hd =>
    obtain ⟨hs, hm⟩ := deliver_sound listener e ⟨hworld, hgood, hrest⟩
    exact ⟨hs, hm ▸ .refl _⟩
  | silent hd hq =>
    rw [hq] at hstep
    obtain ⟨hs, hm⟩ := announce_sound listener none hworld hstep hrest
    exact ⟨hs, hm ▸ .refl _⟩
  | @core t next set hd hq hanswer =>
    rw [hq] at hstep
    rw [hcore.answers t session.world.core set hworld.core hanswer]
    have hworld' := hworld.set_core hcore t
    obtain ⟨hs, hm⟩ := announce_sound listener _ hworld' hstep hrest
    exact ⟨hs, hm ▸ .refl _⟩
  | @fail t next e hd hq hanswer =>
    have hworld' := hworld.set_core hcore t
    obtain ⟨hs, hm⟩ := conclude_sound listener (.error e) hworld'
      (fun set he => absurd he (by simp)) hrest
    exact ⟨hs, hm ▸ .refl _⟩
  | @hit t found miss set hd hq hset =>
    rw [hq] at hstep
    have hgrows : session.world.memo.Grows (session.world.memo.get t).2 := Memo.grows_get
    have hworld' := hworld.set_memo (hworld.memo.get (t := t))
    obtain ⟨hs, hm⟩ := announce_sound listener _ hworld'
      ((hstep.1 set ⟨set, hset⟩ (hworld.memo t set hset)).mono hgrows.has) (hrest.mono hgrows)
    exact ⟨hs, hm ▸ hgrows⟩
  | @miss t found miss hd hq hset =>
    rw [hq] at hstep
    have hgrows : session.world.memo.Grows (session.world.memo.get t).2 := Memo.grows_get
    have hworld' := hworld.set_memo (hworld.memo.get (t := t))
    obtain ⟨hs, hm⟩ := announce_sound listener _ hworld' ((hstep.2 rfl).mono hgrows.has)
      (hrest.mono hgrows)
    exact ⟨hs, hm ▸ hgrows⟩
  | @store t set q hd hq =>
    rw [hq] at hstep
    obtain ⟨hset, _, _, hnext⟩ := hstep
    have hgrows := hworld.memo.grows_store hset
    have hworld' := hworld.set_memo (hworld.memo.store hset)
    obtain ⟨hs, hm⟩ := announce_sound listener _ hworld' (hnext _ hgrows.has Memo.has_store)
      (hrest.mono hgrows)
    exact ⟨hs, hm ▸ hgrows⟩
  | @answer set hd hq =>
    rw [hq] at hstep
    obtain ⟨hs, hm⟩ := conclude_sound listener (.ok set) hworld
      (fun set' he => by cases he; exact hstep.1) hrest
    exact ⟨hs, hm ▸ .refl _⟩

/-- **However many turns are taken**, the memo stays right and the queries on their way. -/
theorem run_sound (listener : Listener τ) (hcore : core.Faithful valid known) (turns : Nat) :
    ∀ {session : Session σ τ}, session.Sound layer known valid question →
      (session.run layer core listener turns).Sound layer known valid question ∧
        session.world.memo.Grows (session.run layer core listener turns).world.memo := by
  induction turns with
  | zero => exact fun h => ⟨h, .refl _⟩
  | succ turns ih =>
    intro session h
    obtain ⟨hs, hgrows⟩ := turn_sound hcore h (turn_turn layer core listener session)
    unfold Session.run
    cases hturn : session.turn layer core listener with
    | ended outcome world =>
      rw [hturn] at hs hgrows
      exact ⟨hs, hgrows⟩
    | ongoing next =>
      rw [hturn] at hs hgrows
      obtain ⟨hs', hgrows'⟩ := ih hs
      exact ⟨hs', hgrows.trans hgrows'⟩

end Ancestry.Closure
