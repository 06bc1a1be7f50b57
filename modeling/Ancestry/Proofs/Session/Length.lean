import Ancestry.Proofs.Query.Length
import Ancestry.Proofs.Session.Sound

/-!
# How long a session takes under hooks

A hook acts once, so it adds one query to the session at most, and a query has only so many turns
(`step_within`).  `Session.turnsLeft` adds up what is left of the queries under way and what the
waiting hooks may still add; every turn lowers it (`turn_within`), whether the query goes on, a
hook asks one of its own or a query is cut short.  Hence a session that is given
`(hooks + 1) * (Layer.bound + 2)` turns ends (`query_ends`): what `Layer.query` says is what the
query came to, and never that it ran out of turns.
-/

namespace Ancestry.Closure

variable {σ : Type} {layer : Layer} {known : TypeName → TypeSet} {question : Question}
  {core : Core σ} {valid : σ → Prop} {session : Session σ Watch} {names : List TypeName}

/-! ## 1. The turns that are left -/

/-- Every direct supertype of a type is among the names, if it is not the type itself. -/
def Layer.Spans (layer : Layer) (known : TypeName → TypeSet) (names : List TypeName) : Prop :=
  ∀ t, ∀ s ∈ (layer.hierarchy known).above t, s = t ∨ s ∈ names

/-- The turns of one query that begins where `names` are all the names but for its own. -/
def turnsOf (names : List TypeName) : Nat := (names.length + 1) * (2 * (names.length + 1) + 6) + 5

/-- The turns still needed for a query under way, and for the delivery that it waits for. -/
def Activation.turnsLeft (names : List TypeName) (a : Activation) : Nat :=
  a.query.turnsLeft (a.asked :: names) + a.delivering.toList.length

/-- The turns still needed for a session. -/
def Session.turnsLeft (names : List TypeName) (session : Session σ Watch) : Nat :=
  ((session.top :: session.rest).map (Activation.turnsLeft names)).sum +
    session.world.listener.hooks.length * (turnsOf names + 2)

/-- Fewer than `n` turns are still needed. -/
def Progress.Within (names : List TypeName) (n : Nat) : Progress σ Watch → Prop
  | .ongoing session => session.turnsLeft names + 1 ≤ n
  | .ended _ _ => True

/-- Any number of steps up, there are no other names. -/
theorem Layer.Spans.reaches {t x : TypeName} (h : layer.Spans known names)
    (hx : (layer.hierarchy known).Reaches t x) : x = t ∨ x ∈ names := by
  induction hx with
  | refl => exact .inl rfl
  | tail _ hlead ih =>
    rcases h _ _ hlead.2 with rfl | hmem
    · exact ih
    · exact .inr hmem

theorem Layer.Spans.covered {top : Activation} {rest : List Activation}
    (h : layer.Spans known names) (hstart : ∀ t, question.Seeks layer known t → t ∈ names) :
    (questionOf question top rest).Covered layer known (fun _ => none) (top.asked :: names) := by
  refine ⟨?_, ?_⟩
  · intro t ht
    cases rest with
    | nil => exact List.mem_cons_of_mem _ (hstart t ht)
    | cons outer rest => exact ht.1 ▸ List.mem_cons_self
  · intro t ht s hs
    rcases h t s hs with rfl | hn
    · exact ht
    · exact List.mem_cons_of_mem _ hn

/-- A query that a hook asks needs no more turns than any other. -/
theorem turnsLeft_ancestors (names : List TypeName) (t : TypeName) :
    (Activation.ancestors t).turnsLeft names = turnsOf names := by
  show Walk.empty.turnsLeft (t :: names) + 5 + 0 = turnsOf names
  rw [Walk.turnsLeft_empty]
  rfl

/-- A question that begins needs no more turns than any other. -/
theorem turnsLeft_activation_le (names : List TypeName) (question : Question) :
    question.activation.turnsLeft names ≤ turnsOf names := by
  cases question with
  | ancestors t => exact Nat.le_of_eq (turnsLeft_ancestors names t)
  | closure t =>
    show Walk.empty.turnsLeft (t :: names) + 3 + 0 ≤ turnsOf names
    rw [Walk.turnsLeft_empty]
    unfold turnsOf
    simp only [List.length_cons]
    omega
  | supertypes t =>
    show 3 + 0 ≤ turnsOf names
    unfold turnsOf
    omega

/-! ## 2. What hooks do -/

theorem length_takeHook {e : Event} {hook : Hook} {others : List Hook} :
    ∀ {hooks : List Hook}, takeHook e hooks = some (hook, others) →
      others.length + 1 = hooks.length
  | [], h => absurd h (by simp [takeHook])
  | first :: hooks, h => by
    unfold takeHook at h
    split at h
    · cases h
      rfl
    · obtain ⟨found, hfound, heq⟩ := Option.map_eq_some_iff.mp h
      cases heq
      exact congrArg (· + 1) (length_takeHook hfound)

/-- Of the hooks, none is added, and one that asks a query is gone. -/
theorem hooks_act (e : Event) (w : Watch) :
    (w.act e).2.hooks.length ≤ w.hooks.length ∧
      ∀ t, (w.act e).1 = .query t → (w.act e).2.hooks.length + 1 ≤ w.hooks.length := by
  unfold Watch.act
  split
  · exact ⟨Nat.le_refl _, fun t h => absurd h (by simp)⟩
  · split
    · exact ⟨Nat.le_refl _, fun t h => absurd h (by simp)⟩
    · next hook others htake =>
      have hlen := length_takeHook htake
      split
      · exact ⟨Nat.le_of_succ_le (Nat.le_of_eq hlen), fun t _ => Nat.le_of_eq hlen⟩
      · exact ⟨Nat.le_of_succ_le (Nat.le_of_eq hlen), fun t h => absurd h (by simp)⟩

theorem hooks_told (t : TypeName) (outcome : Outcome) (w : Watch) :
    (w.told t outcome).hooks = w.hooks := by
  unfold Watch.told
  split <;> rfl

/-! ## 3. The turn -/

/-- An announcement takes the query nearer to its end by a turn, and the listener is left as it
was. -/
theorem announce_within {world : World σ Watch} {q : Query} {event : Option Event}
    (hd : session.top.delivering = none)
    (hq : q.turnsLeft (session.top.asked :: names) + event.toList.length + 1 ≤
      session.top.query.turnsLeft (session.top.asked :: names))
    (hhooks : world.listener.hooks = session.world.listener.hooks) :
    (session.announce .hooks world q event).Within names (session.turnsLeft names) := by
  cases event with
  | none =>
    simp only [Session.announce, Progress.Within, Session.turnsLeft, Activation.turnsLeft, hd,
      hhooks, List.map_cons, List.sum_cons, Option.toList, List.length_nil] at hq ⊢
    omega
  | some e =>
    simp only [Session.announce, Progress.Within, Session.turnsLeft, Activation.turnsLeft, hd,
      Listener.hooks, hhooks, List.map_cons, List.sum_cons, Option.toList, List.length_cons,
      List.length_nil] at hq ⊢
    omega

/-- A query that is over has no turns left, and the one below goes on with the turns that it had. -/
theorem conclude_within {world : World σ Watch} {outcome : Outcome}
    (hhooks : world.listener.hooks.length ≤ session.world.listener.hooks.length) :
    (session.conclude .hooks world outcome).Within names (session.turnsLeft names) := by
  have htop : 1 ≤ session.top.turnsLeft names := Nat.le_add_right_of_le one_le_turnsLeft
  have hmul := Nat.mul_le_mul_right (turnsOf names + 2) hhooks
  unfold Session.conclude
  cases hr : session.rest with
  | nil => trivial
  | cons outer rest =>
    simp only [Progress.Within, Session.turnsLeft, hr, Listener.hooks, hooks_told, List.map_cons,
      List.sum_cons]
    omega

/-- A hook that asks begins a query, which has turns of its own, but there is one hook less to do
so. -/
theorem deliver_within {e : Event} (hd : session.top.delivering = some e) :
    (session.deliver .hooks e).Within names (session.turnsLeft names) := by
  obtain ⟨hle, hquery⟩ := hooks_act e session.world.listener
  unfold Session.deliver
  simp only [Listener.hooks]
  rcases hact : session.world.listener.act e with ⟨choice, w⟩
  rw [hact] at hle hquery
  cases choice with
  | resume =>
    have hmul := Nat.mul_le_mul_right (turnsOf names + 2) hle
    simp only [Progress.Within, Session.turnsLeft, Activation.turnsLeft, hd, List.map_cons,
      List.sum_cons, Option.toList, List.length_cons, List.length_nil] at hmul ⊢
    omega
  | query t =>
    -- The new query is paid for by the hook that asks it, which is gone from now on.
    have hmul := Nat.mul_le_mul_right (turnsOf names + 2) (hquery t rfl)
    rw [Nat.add_mul, Nat.one_mul] at hmul
    simp only [Progress.Within, Session.turnsLeft, List.map_cons, List.sum_cons,
      turnsLeft_ancestors] at hmul ⊢
    omega
  | cutShort e' => exact conclude_within hle

/-- **Every turn lowers the number of turns that are still needed.** -/
theorem turn_within {progress : Progress σ Watch} (hnames : layer.Spans known names)
    (hstart : ∀ t, question.Seeks layer known t → t ∈ names)
    (hcore : core.Faithful valid known) (h : session.Sound layer known valid question)
    (hturn : session.Turn layer core .hooks progress) :
    progress.Within names (session.turnsLeft names) := by
  have hstep := step_within (hnames.covered hstart) h.underway.1
  cases hturn with
  | deliver hd => exact deliver_within hd
  | silent hd hq =>
    rw [hq] at hstep
    exact announce_within hd hstep rfl
  | @core t next set hd hq hanswer =>
    rw [hq] at hstep
    rw [hcore.answers t session.world.core set h.world.core hanswer]
    refine announce_within hd (Nat.le_trans ?_ hstep) rfl
    cases (next (known t)).2 with
    | none => exact Nat.le_succ _
    | some occasion => exact Nat.le_refl _
  | fail hd hq hanswer => exact conclude_within (Nat.le_refl _)
  | @hit t found miss set hd hq hset =>
    rw [hq] at hstep
    exact announce_within hd (hstep.1 set) rfl
  | miss hd hq hset =>
    rw [hq] at hstep
    exact announce_within hd hstep.2 rfl
  | store hd hq =>
    rw [hq] at hstep
    exact announce_within hd hstep rfl
  | answer hd hq => exact conclude_within (Nat.le_refl _)

/-- A session that is given the turns which it needs ends. -/
theorem run_ends (hnames : layer.Spans known names)
    (hstart : ∀ t, question.Seeks layer known t → t ∈ names)
    (hcore : core.Faithful valid known) (turns : Nat) :
    ∀ {session : Session σ Watch}, session.Sound layer known valid question →
      session.turnsLeft names ≤ turns →
        ∃ outcome world, session.run layer core .hooks turns = .ended outcome world := by
  induction turns with
  | zero =>
    intro session h hle
    have htop : 1 ≤ session.top.query.turnsLeft (session.top.asked :: names) := one_le_turnsLeft
    simp only [Session.turnsLeft, Activation.turnsLeft, List.map_cons, List.sum_cons] at hle
    omega
  | succ turns ih =>
    intro session h hle
    have hturn := turn_turn layer core .hooks session
    have hs := (turn_sound hcore h hturn).1
    have hwithin := turn_within hnames hstart hcore h hturn
    unfold Session.run
    cases hp : session.turn layer core .hooks with
    | ended outcome world => exact ⟨outcome, world, rfl⟩
    | ongoing next =>
      rw [hp] at hs hwithin
      exact ih hs (by simp only [Progress.Within] at hwithin; omega)

/-- As many turns as a layer grants a query are enough for a query that begins. -/
theorem turnsOf_le_bound {t : TypeName} (hlen : names.length ≤ layer.index.extent + core.extent) :
    turnsOf (t :: names) ≤ layer.bound core := by
  simp only [turnsOf, Layer.bound, List.length_cons]
  generalize names.length = n at hlen ⊢
  generalize layer.index.extent + core.extent = m at hlen ⊢
  show (n + 2) * (2 * (n + 2) + 6) + 5 ≤ 2 * ((m + 3) * (m + 6))
  have hright : (m + 3) * (m + 6) = (m + 2) * (m + 5) + (m + 2) + (m + 6) := by
    rw [Nat.succ_mul, Nat.mul_succ]
  calc (n + 2) * (2 * (n + 2) + 6) + 5
      ≤ (m + 2) * (2 * (m + 5)) + 5 :=
        Nat.add_le_add_right (Nat.mul_le_mul (by omega) (by omega)) 5
    _ = 2 * ((m + 2) * (m + 5)) + 5 := by rw [Nat.mul_left_comm]
    _ ≤ 2 * ((m + 3) * (m + 6)) := by omega

/-- **A query under hooks ends**, with as many names about as the registry says at most. -/
theorem query_ends (hnames : layer.Spans known names)
    (hlen : names.length ≤ layer.index.extent + core.extent) (hcore : core.Faithful valid known)
    {world : World σ Watch} (h : world.Sound layer known valid) (question : Question) :
    ∃ outcome world', Session.run layer core .hooks
      ((world.listener.hooks.length + 1) * (layer.bound core + 2))
      ⟨question.activation, [], world⟩ = .ended outcome world' := by
  have hspans : layer.Spans known (question.activation.asked :: names) :=
    fun t s hs => (hnames t s hs).imp_right (List.mem_cons_of_mem _)
  have hstart : ∀ t, question.Seeks layer known t → t ∈ question.activation.asked :: names := by
    intro t ht
    cases question with
    | ancestors u => exact ht.1 ▸ List.mem_cons_self
    | closure u => exact (show u = t from ht) ▸ List.mem_cons_self
    | supertypes u => exact absurd ht not_false
  have hturns := turnsOf_le_bound (t := question.activation.asked) hlen
  refine run_ends hspans hstart hcore _ (Session.sound_begin question h) ?_
  have hact := turnsLeft_activation_le (question.activation.asked :: names) question
  have hmul := Nat.mul_le_mul_left world.listener.hooks.length (Nat.add_le_add_right hturns 2)
  simp only [Session.turnsLeft, List.map_cons, List.map_nil, List.sum_cons, List.sum_nil]
  rw [Nat.add_mul, Nat.one_mul]
  omega

end Ancestry.Closure
