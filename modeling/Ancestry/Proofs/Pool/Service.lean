import Ancestry.Proofs.Pool.Basic
import Ancestry.Proofs.Registry.Termination

/-!
# Requests come to their answers

`Service.Serves` is what a pool needs of a registry that is asked turn by turn.  A request that is
under way comes nearer to its end with each turn, whatever other requests have done to the state in
the meantime, and when it ends it is answered as if it had been alone.  The condition on a request
says nothing of the state: all it asks of it is that the memos are right, which every turn keeps.

A layer over such a registry is such a registry (`layer_serves`), so all registries are whose
listeners only record (`registry_serves`).
-/

namespace Ancestry.Closure

variable {ρ σ : Type} {layer : Layer} {below known : TypeName → TypeSet} {names : List TypeName}
  {core : Service ρ σ} {valid : σ → Prop} {underway : TypeName → ρ → Prop} {left : ρ → Nat}
  {pace : Nat} {t : TypeName} {thread : Thread ρ} {world : World σ Watch}

/-! ## 1. What is expected of a registry -/

/-- What a turn may come to that a request about `t` has with `n` turns left at most. -/
def Service.Reply (valid : σ → Prop) (known : TypeName → TypeSet) (underway : TypeName → ρ → Prop)
    (left : ρ → Nat) (t : TypeName) (n : Nat) : (ρ ⊕ Outcome) × σ → Prop
  | (.inl r, s) => underway t r ∧ left r + 1 ≤ n ∧ valid s
  | (.inr outcome, s) => outcome = .ok (known t) ∧ valid s

/-- In the states `valid`, which it does not leave, the registry answers `known`, with `pace` turns
for a request at most. -/
structure Service.Serves (service : Service ρ σ) (valid : σ → Prop) (known : TypeName → TypeSet)
    (underway : TypeName → ρ → Prop) (left : ρ → Nat) (pace : Nat) : Prop where
  request : ∀ t, underway t (service.request t) ∧ left (service.request t) ≤ pace
  one_le : ∀ t r, underway t r → 1 ≤ left r
  turn : ∀ t r s, underway t r → valid s →
    Reply valid known underway left t (left r) (service.turn r s)

theorem Service.Serves.congr {service : Service ρ σ} {valid' : σ → Prop}
    (h : service.Serves valid known underway left pace) (hvalid : ∀ s, valid' s ↔ valid s) :
    service.Serves valid' known underway left pace := by
  obtain rfl : valid' = valid := funext fun s => propext (hvalid s)
  exact h

/-! ## 2. The turns of a layer -/

/-- What the listener has in mind after an event, if there is one. -/
def Watch.heard (event : Option Event) (w : Watch) : Watch :=
  match event with
  | none => w
  | some e => Listener.hooks.hear e w

/-- The query of a request goes on as `q`, with an event to be delivered or none. -/
def Thread.goes (thread : Thread ρ) (q : Query) (event : Option Event) : Thread ρ :=
  { top := ⟨thread.top.asked, q, event⟩ }

/-- What a turn of a request can be, while no other query has been asked in the middle of its own
and the listener only records. -/
inductive Thread.Turn (layer : Layer) (core : Service ρ σ) (thread : Thread ρ)
    (world : World σ Watch) : (Thread ρ ⊕ Outcome) × World σ Watch → Prop
  | deliver {e : Event} (hd : thread.top.delivering = some e) :
    Turn layer core thread world (.inl (thread.goes thread.top.query none), world)
  | wait {t : TypeName} {next : TypeSet → Query × Option Occasion} {r : ρ} {state : σ}
    (hd : thread.top.delivering = none) (hstep : layer.step thread.top.query = .core t next)
    (hcore : core.turn (thread.waiting.getD (core.request t)) world.core = (.inl r, state)) :
    Turn layer core thread world
      (.inl { thread with waiting := some r }, { world with core := state })
  | core {t : TypeName} {next : TypeSet → Query × Option Occasion} {set : TypeSet} {state : σ}
    (hd : thread.top.delivering = none) (hstep : layer.step thread.top.query = .core t next)
    (hcore : core.turn (thread.waiting.getD (core.request t)) world.core =
      (.inr (.ok set), state)) :
    Turn layer core thread world
      (.inl (thread.goes (next set).1 ((next set).2.map (⟨·, t⟩))),
        ⟨world.memo, state, world.listener.heard ((next set).2.map (⟨·, t⟩))⟩)
  | fail {t : TypeName} {next : TypeSet → Query × Option Occasion} {e : Event} {state : σ}
    (hd : thread.top.delivering = none) (hstep : layer.step thread.top.query = .core t next)
    (hcore : core.turn (thread.waiting.getD (core.request t)) world.core =
      (.inr (.error e), state)) :
    Turn layer core thread world (.inr (.error e), { world with core := state })
  | silent {q : Query} (hd : thread.top.delivering = none)
    (hstep : layer.step thread.top.query = .silent q) :
    Turn layer core thread world (.inl (thread.goes q none), world)
  | hit {t : TypeName} {found : TypeSet → Query} {miss : Query} {set : TypeSet}
    (hd : thread.top.delivering = none)
    (hstep : layer.step thread.top.query = .lookup t found miss)
    (hset : world.memo.peek? t = some set) :
    Turn layer core thread world (.inl (thread.goes (found set) (some ⟨.cacheHit, t⟩)),
      ⟨(world.memo.get t).2, world.core, world.listener.heard (some ⟨.cacheHit, t⟩)⟩)
  | miss {t : TypeName} {found : TypeSet → Query} {miss : Query}
    (hd : thread.top.delivering = none)
    (hstep : layer.step thread.top.query = .lookup t found miss)
    (hset : world.memo.peek? t = none) :
    Turn layer core thread world (.inl (thread.goes miss (some ⟨.cacheMiss, t⟩)),
      ⟨(world.memo.get t).2, world.core, world.listener.heard (some ⟨.cacheMiss, t⟩)⟩)
  | store {t : TypeName} {set : TypeSet} {q : Query} (hd : thread.top.delivering = none)
    (hstep : layer.step thread.top.query = .store t set q) :
    Turn layer core thread world (.inl (thread.goes q (some ⟨.cacheStore, t⟩)),
      ⟨world.memo.store t set, world.core, world.listener.heard (some ⟨.cacheStore, t⟩)⟩)
  | answer {set : TypeSet} (hd : thread.top.delivering = none)
    (hstep : layer.step thread.top.query = .answer set) :
    Turn layer core thread world (.inr (.ok set), world)

theorem Watch.Calm.heard {w : Watch} (h : w.Calm) (event : Option Event) :
    (w.heard event).Calm := by
  cases event with
  | none => exact h
  | some e => exact hooks_records.hear e w h

/-- A turn is of one of these kinds. -/
theorem thread_turn (layer : Layer) (core : Service ρ σ) (hrest : thread.rest = [])
    (hcalm : world.listener.Calm) :
    thread.Turn layer core world ((layer.service core).turn thread world) := by
  obtain ⟨⟨asked, q, delivering⟩, rest, waiting⟩ := thread
  obtain rfl : rest = [] := hrest
  obtain ⟨memo, state, listener⟩ := world
  obtain ⟨hhooks, hlost⟩ : listener.hooks = [] ∧ listener.lost = none := hcalm
  cases delivering with
  | some e =>
    have hact : Listener.hooks.act e listener = (.resume, listener) := by
      simp only [Listener.hooks, Watch.act, hhooks, hlost, takeHook]
    simp only [Layer.service, Session.turn, Session.deliver, hact, Progress.thread]
    exact .deliver (e := e) rfl
  | none =>
    cases hstep : layer.step q with
    | silent q' =>
      simp only [Layer.service, Session.turn, hstep]
      exact .silent rfl hstep
    | core t next =>
      simp only [Layer.service, hstep]
      split
      · next r state' hcore => exact .wait rfl hstep hcore
      · next outcome state' hcore =>
        cases outcome with
        | error e =>
          simp only [Session.turn, hstep, Core.giving]
          exact .fail rfl hstep hcore
        | ok set =>
          have hturn : Thread.Turn layer core ⟨⟨asked, q, none⟩, [], waiting⟩
              ⟨memo, state, listener⟩ _ := .core rfl hstep hcore
          simp only [Session.turn, hstep, Core.giving]
          cases hevent : (next set).2 with
          | none =>
            rw [hevent] at hturn
            exact hturn
          | some occasion =>
            rw [hevent] at hturn
            exact hturn
    | lookup t found miss =>
      simp only [Layer.service, Session.turn, hstep, Memo.get_fst]
      cases hset : memo.peek? t with
      | some set => exact .hit rfl hstep hset
      | none => exact .miss rfl hstep hset
    | store t set q' =>
      simp only [Layer.service, Session.turn, hstep]
      exact .store rfl hstep
    | answer set =>
      simp only [Layer.service, Session.turn, hstep]
      exact .answer rfl hstep

/-! ## 3. A layer over a registry that serves -/

/-- The request is one query about `t`, which is on its way, and its request to the core registry is
under way as well, if there is one. -/
structure Thread.Underway (layer : Layer) (below : TypeName → TypeSet)
    (underway : TypeName → ρ → Prop) (t : TypeName) (thread : Thread ρ) : Prop where
  asked : thread.top.asked = t
  rest : thread.rest = []
  good : thread.top.query.Good layer below (fun _ => none) (fun _ => True) (.ancestors t)
  waiting : ∀ r, thread.waiting = some r → ∃ u next, thread.top.delivering = none ∧
    layer.step thread.top.query = .core u next ∧ underway u r

/-- The turns still needed for a request, where a request to the core registry needs `pace` at
most. -/
def Thread.turnsLeft (names : List TypeName) (pace : Nat) (left : ρ → Nat) (thread : Thread ρ) :
    Nat :=
  match thread.waiting with
  | none => thread.top.turnsLeft names * (pace + 1)
  | some r => (thread.top.turnsLeft names - 1) * (pace + 1) + left r

/-- The states in which a layer answers. -/
structure World.Quiet (layer : Layer) (below : TypeName → TypeSet) (valid : σ → Prop)
    (world : World σ Watch) : Prop where
  memo : world.memo.Sound (layer.hierarchy below)
  calm : world.listener.Calm
  core : valid world.core

theorem Layer.Spans.covers_ancestors (h : layer.Spans below names) (t : TypeName) :
    (Question.ancestors t).Covered layer below (fun _ => none) (t :: names) := by
  refine ⟨fun u hu => hu.1 ▸ List.mem_cons_self, fun u hu s hs => ?_⟩
  rcases h u s hs with rfl | hn
  · exact hu
  · exact List.mem_cons_of_mem _ hn

/-- While a query needs a turn, its request needs as many as the core registry may take for it. -/
theorem turnsLeft_pace (names : List TypeName) (pace : Nat) (thread : Thread ρ) :
    thread.top.turnsLeft names * (pace + 1) =
      (thread.top.turnsLeft names - 1) * (pace + 1) + (pace + 1) := by
  have hone : 1 ≤ thread.top.turnsLeft names := Nat.le_add_right_of_le one_le_turnsLeft
  rw [← Nat.succ_mul, Nat.succ_eq_add_one, Nat.sub_add_cancel hone]

/-- A request needs a turn more than its query does after the next step. -/
theorem Thread.Underway.lt_turnsLeft (hcore : core.Serves valid below underway left pace)
    (h : thread.Underway layer below underway t) :
    (thread.top.turnsLeft names - 1) * (pace + 1) + 1 ≤ thread.turnsLeft names pace left := by
  rw [turnsLeft]
  split
  · have hpace := turnsLeft_pace names pace thread
    omega
  · next r hr =>
    obtain ⟨u, _, _, _, hr⟩ := h.waiting r hr
    exact Nat.add_le_add_left (hcore.one_le u r hr) _

/-- The request to the core registry for which a query waits, or with which it is about to begin. -/
theorem Thread.Underway.asks (names : List TypeName)
    (hcore : core.Serves valid below underway left pace)
    (h : thread.Underway layer below underway t) {u : TypeName}
    {next : TypeSet → Query × Option Occasion}
    (hstep : layer.step thread.top.query = .core u next) :
    underway u (thread.waiting.getD (core.request u)) ∧
      (thread.top.turnsLeft names - 1) * (pace + 1) +
        left (thread.waiting.getD (core.request u)) ≤ thread.turnsLeft names pace left := by
  rw [turnsLeft]
  cases hwaiting : thread.waiting with
  | none =>
    obtain ⟨hunderway, hpace⟩ := hcore.request u
    refine ⟨hunderway, ?_⟩
    have hturns := turnsLeft_pace names pace thread
    dsimp only [Option.getD_none]
    omega
  | some r =>
    obtain ⟨_, _, _, hstep', hr⟩ := h.waiting r hwaiting
    cases hstep.symm.trans hstep'
    exact ⟨hr, Nat.le_refl _⟩

/-- The query of a request goes on as one that is on its way and needs fewer turns. -/
theorem Thread.Underway.goes (hcore : core.Serves valid below underway left pace)
    (h : thread.Underway layer below underway t) {q : Query} (event : Option Event)
    (hq : q.Good layer below (fun _ => none) (fun _ => True) (.ancestors t))
    (hle : q.turnsLeft (thread.top.asked :: names) + event.toList.length + 1 ≤
      thread.top.turnsLeft names) :
    (thread.goes q event).Underway layer below underway t ∧
      (thread.goes q event).turnsLeft names pace left + 1 ≤ thread.turnsLeft names pace left := by
  refine ⟨⟨h.asked, rfl, hq, fun r hr => by cases hr⟩, ?_⟩
  have hturns : (thread.goes q event).top.turnsLeft names ≤ thread.top.turnsLeft names - 1 :=
    Nat.le_sub_one_of_lt hle
  exact Nat.le_trans (Nat.succ_le_succ (Nat.mul_le_mul_right (pace + 1) hturns))
    (h.lt_turnsLeft hcore)

/-- What the core registry replies to the request for which a query waits. -/
theorem Thread.Underway.reply (hcore : core.Serves valid below underway left pace)
    (h : thread.Underway layer below underway t) (hvalid : valid world.core) {u : TypeName}
    {next : TypeSet → Query × Option Occasion}
    (hstep : layer.step thread.top.query = .core u next) :
    Service.Reply valid below underway left u (left (thread.waiting.getD (core.request u)))
      (core.turn (thread.waiting.getD (core.request u)) world.core) :=
  hcore.turn u _ _ (h.asks [] hcore hstep).1 hvalid

/-- A query that has nothing to deliver has its turns to itself. -/
theorem turnsLeft_of_ready {top : Activation} (hd : top.delivering = none) :
    top.turnsLeft names = top.query.turnsLeft (top.asked :: names) := by
  rw [Activation.turnsLeft, hd]
  rfl

/-- A request whose query goes on after a step, with an event that its listener only records. -/
theorem Thread.Underway.reply_goes (hcore : core.Serves valid below underway left pace)
    (h : thread.Underway layer below underway t) (hd : thread.top.delivering = none)
    {q : Query} {event : Option Event} {memo : Memo} {state : σ} {w : Watch}
    (hq : q.Good layer below (fun _ => none) (fun _ => True) (.ancestors t))
    (hle : q.turnsLeft (thread.top.asked :: names) + event.toList.length + 1 ≤
      thread.top.query.turnsLeft (thread.top.asked :: names))
    (hmemo : memo.Sound (layer.hierarchy below)) (hcalm : w.Calm) (hvalid : valid state) :
    Service.Reply (World.Quiet layer below valid) known (Thread.Underway layer below underway)
      (Thread.turnsLeft names pace left) t (thread.turnsLeft names pace left)
      (.inl (thread.goes q event), ⟨memo, state, w.heard event⟩) := by
  rw [← turnsLeft_of_ready hd] at hle
  obtain ⟨hnext, hleft⟩ := h.goes hcore event hq hle
  exact ⟨hnext, hleft, hmemo, hcalm.heard event, hvalid⟩

/-- A request that has an event to deliver. -/
theorem Thread.Underway.reply_deliver (hcore : core.Serves valid below underway left pace)
    (h : thread.Underway layer below underway t) {e : Event}
    (hd : thread.top.delivering = some e) (hworld : world.Quiet layer below valid) :
    Service.Reply (World.Quiet layer below valid) known (Thread.Underway layer below underway)
      (Thread.turnsLeft names pace left) t (thread.turnsLeft names pace left)
      (.inl (thread.goes thread.top.query none), world) := by
  have hle : thread.top.query.turnsLeft (thread.top.asked :: names) + 0 + 1 ≤
      thread.top.turnsLeft names := by
    rw [Activation.turnsLeft, hd]
    exact Nat.le_refl _
  obtain ⟨hnext, hleft⟩ := h.goes hcore none h.good hle
  exact ⟨hnext, hleft, hworld⟩

/-- A request that waits for the core registry, which has not got to the answer yet. -/
theorem Thread.Underway.reply_wait (hcore : core.Serves valid below underway left pace)
    (h : thread.Underway layer below underway t) (hd : thread.top.delivering = none)
    (hworld : world.Quiet layer below valid) {u : TypeName}
    {next : TypeSet → Query × Option Occasion} {r : ρ} {state : σ}
    (hstep : layer.step thread.top.query = .core u next)
    (hturn : core.turn (thread.waiting.getD (core.request u)) world.core = (.inl r, state)) :
    Service.Reply (World.Quiet layer below valid) known (Thread.Underway layer below underway)
      (Thread.turnsLeft names pace left) t (thread.turnsLeft names pace left)
      (.inl { thread with waiting := some r }, { world with core := state }) := by
  have hreply := h.reply hcore hworld.core hstep
  rw [hturn] at hreply
  obtain ⟨hnext, hleft, hvalid⟩ := hreply
  refine ⟨⟨h.asked, h.rest, h.good, ?_⟩, ?_, hworld.memo, hworld.calm, hvalid⟩
  · rintro _ ⟨⟩
    exact ⟨u, next, hd, hstep, hnext⟩
  · exact Nat.le_trans (Nat.add_le_add_left hleft _) (h.asks names hcore hstep).2

/-- **A turn of a request brings it nearer to its answer**, whatever kind of turn it is. -/
theorem Thread.Underway.reply_turn (hcore : core.Serves valid below underway left pace)
    (hspans : layer.Spans below names)
    (hknown : (Question.ancestors t).Answers layer below (fun _ => none) (known t))
    (h : thread.Underway layer below underway t) (hworld : world.Quiet layer below valid)
    {reply : (Thread ρ ⊕ Outcome) × World σ Watch} (hturn : thread.Turn layer core world reply) :
    Service.Reply (World.Quiet layer below valid) known (Thread.Underway layer below underway)
      (Thread.turnsLeft names pace left) t (thread.turnsLeft names pace left) reply := by
  have hstep := step_good h.good
  have hcovered : (Question.ancestors t).Covered layer below (fun _ => none)
      (thread.top.asked :: names) := by
    rw [h.asked]
    exact hspans.covers_ancestors t
  have hwithin := step_within hcovered h.good
  cases hturn with
  | deliver hd => exact h.reply_deliver hcore hd hworld
  | wait hd hq hreply => exact h.reply_wait hcore hd hworld hq hreply
  | @core u next set state hd hq hreply =>
    have hbelow := h.reply hcore hworld.core hq
    rw [hreply] at hbelow
    obtain ⟨hset, hvalid⟩ := hbelow
    cases hset
    rw [hq] at hstep hwithin
    have hlength : ((next (below u)).2.map (Event.mk · u)).toList.length ≤ 1 := by
      cases (next (below u)).2 <;> simp
    have hle := Nat.le_trans (Nat.succ_le_succ (Nat.add_le_add_left hlength _)) hwithin
    exact h.reply_goes hcore hd hstep hle hworld.memo hworld.calm hvalid
  | fail hd hq hreply =>
    have hbelow := h.reply hcore hworld.core hq
    rw [hreply] at hbelow
    cases hbelow.1
  | silent hd hq =>
    rw [hq] at hstep hwithin
    exact h.reply_goes hcore hd hstep hwithin hworld.memo hworld.calm hworld.core
  | @hit u found miss set hd hq hset =>
    rw [hq] at hstep hwithin
    have hgood := hstep.1 set trivial (hworld.memo u set hset)
    exact h.reply_goes hcore hd hgood (hwithin.1 set) hworld.memo.get hworld.calm hworld.core
  | miss hd hq hset =>
    rw [hq] at hstep hwithin
    exact h.reply_goes hcore hd (hstep.2 rfl) hwithin.2 hworld.memo.get hworld.calm hworld.core
  | store hd hq =>
    rw [hq] at hstep hwithin
    obtain ⟨hset, _, _, hgood⟩ := hstep
    exact h.reply_goes hcore hd (hgood _ (fun _ _ => trivial) trivial) hwithin
      (hworld.memo.store hset) hworld.calm hworld.core
  | answer hd hq =>
    rw [hq] at hstep
    exact ⟨congrArg _ (hstep.1.unique hknown), hworld⟩

/-- **A layer serves if its core registry does.** -/
theorem layer_serves (hcore : core.Serves valid below underway left pace)
    (hspans : layer.Spans below names)
    (hknown : ∀ t, (Question.ancestors t).Answers layer below (fun _ => none) (known t)) :
    (layer.service core).Serves (World.Quiet layer below valid) known
      (Thread.Underway layer below underway) (Thread.turnsLeft names pace left)
      (turnsOf names * (pace + 1)) := by
  refine ⟨fun t => ⟨⟨rfl, rfl, ?_, ?_⟩, ?_⟩, ?_, ?_⟩
  · exact good_activation (.ancestors t)
  · exact fun r hr => by cases hr
  · exact Nat.le_of_eq (congrArg (· * (pace + 1)) (turnsLeft_ancestors names t))
  · exact fun t thread h => Nat.le_trans (Nat.le_add_left 1 _) (h.lt_turnsLeft hcore)
  · intro t thread world h hworld
    exact h.reply_turn hcore hspans (hknown t) hworld (thread_turn layer core h.rest hworld.calm)

/-! ## 4. Registries -/

namespace Registry

/-- A table has its answer ready. -/
theorem table_serves (ancestors : TypeTable) :
    (table ancestors).service.Serves (fun _ => True) (table ancestors).answer
      (fun t r => r = t) (fun _ => 1) 1 := by
  refine ⟨fun t => ⟨rfl, Nat.le_refl 1⟩, fun _ _ _ => Nat.le_refl 1, ?_⟩
  rintro t _ s rfl _
  exact ⟨rfl, trivial⟩

/-- A layer is quiet if its memo is right and its listener only records, and the same holds of the
layers below. -/
theorem quiet_iff {layer : Layer} {core : Registry} (hooks : List Hook)
    (world : World core.State Watch) :
    (layered layer hooks core).Sound world ∧ (layered layer hooks core).Recording world ↔
      world.Quiet layer core.answer fun s => core.Sound s ∧ core.Recording s := by
  constructor
  · rintro ⟨hsound, hcalm, hrecording⟩
    obtain ⟨hmemo, hcore⟩ := hsound core.answer core.answers_answer
    exact ⟨hmemo, hcalm, hcore, hrecording⟩
  · rintro ⟨hmemo, hcalm, hcore, hrecording⟩
    refine ⟨fun below hbelow => ?_, hcalm, hrecording⟩
    rw [hbelow.unique core.answers_answer]
    exact ⟨hmemo, hcore⟩

/-- What a layer answers it finds by its walks, and over what its core registry answers. -/
theorem answers_layered (layer : Layer) (hooks : List Hook) (core : Registry) (t : TypeName) :
    (Question.ancestors t).Answers layer core.answer (fun _ => none)
      ((layered layer hooks core).answer t) := by
  obtain ⟨below, hbelow, hknown⟩ := (layered layer hooks core).answers_answer
  rw [hbelow.unique core.answers_answer] at hknown
  exact hknown t

/-- **Every registry serves whose listeners only record.** -/
theorem registry_serves : ∀ registry : Registry, ∃ underway left pace, registry.service.Serves
    (fun s => registry.Sound s ∧ registry.Recording s) registry.answer underway left pace
  | table ancestors =>
    ⟨_, _, _, (table_serves ancestors).congr fun _ => iff_of_true ⟨trivial, trivial⟩ trivial⟩
  | layered layer hooks core => by
    obtain ⟨underway, left, pace, hcore⟩ := registry_serves core
    obtain ⟨_, hspans⟩ := core.answers_answer.spans_mentioned layer
    have hserves := layer_serves hcore hspans (answers_layered layer hooks core)
    exact ⟨_, _, _, hserves.congr (quiet_iff hooks)⟩

end Registry

end Ancestry.Closure
