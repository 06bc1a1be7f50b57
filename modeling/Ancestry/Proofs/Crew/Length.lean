import Ancestry.Proofs.Crew.Sound
import Ancestry.Proofs.Query.Length

/-!
# A crew comes to an end

Where the types that can be reached are finitely many, each worker has only so much left to do
(`Worker.turnsLeft`), and what the other workers write to the memo does not add to it.  So a worker
that goes on without the memo settles (`exists_settles`), some worker can take a step until all are
done (`exists_step`), and a crew gets done, whoever takes the steps (`exists_done`).
-/

namespace Ancestry.Closure

variable {layer : Layer} {known : TypeName → TypeSet} {memo memo' : Memo} {worker next : Worker}
  {plans : List (List TypeName)} {crew : Crew} {names : List TypeName}

/-! ## 1. One worker -/

/-- What a worker still has to do. -/
def Worker.turnsLeft (names : List TypeName) (worker : Worker) : Nat :=
  (worker.current.toList.map fun c => c.2.turnsLeft names).sum +
    worker.ahead.length * (Walk.empty.turnsLeft names + 6)

/-- The names have all that the worker can come by. -/
def Worker.Covered (layer : Layer) (known : TypeName → TypeSet) (names : List TypeName)
    (worker : Worker) : Prop :=
  ∀ t ∈ worker.plan, (Question.ancestors t).Covered layer known (fun _ => none) names

theorem Worker.Moves.covered (h : worker.Moves layer known memo memo' next)
    (hnames : worker.Covered layer known names) : next.Covered layer known names := by
  intro t ht
  rw [h.plan] at ht
  exact hnames t ht

@[simp] theorem turnsLeft_current {t : TypeName} {q : Query} {ahead : List TypeName}
    {answered : List (TypeName × TypeSet)} :
    Worker.turnsLeft names ⟨some (t, q), ahead, answered⟩ =
      q.turnsLeft names + ahead.length * (Walk.empty.turnsLeft names + 6) := by
  simp [Worker.turnsLeft]

@[simp] theorem turnsLeft_idle {ahead : List TypeName} {answered : List (TypeName × TypeSet)} :
    Worker.turnsLeft names ⟨none, ahead, answered⟩ =
      ahead.length * (Walk.empty.turnsLeft names + 6) := by
  simp [Worker.turnsLeft]

/-- Each step of the query that a worker is at leaves it fewer turns. -/
theorem Worker.Sound.within {t : TypeName} {q : Query} {ahead : List TypeName}
    {answered : List (TypeName × TypeSet)}
    (h : Worker.Sound layer known memo ⟨some (t, q), ahead, answered⟩)
    (hnames : Worker.Covered layer known names ⟨some (t, q), ahead, answered⟩) :
    (layer.step q).Within names known (q.turnsLeft names) :=
  step_within (hnames t (by simp [plan])) (h.current (t, q) rfl)

/-- What a worker does without the memo leaves it less to do. -/
theorem advance_turnsLeft (hnames : worker.Covered layer known names)
    (h : worker.Sound layer known memo) (hnext : worker.Advance layer known next) :
    next.turnsLeft names + 1 ≤ worker.turnsLeft names := by
  cases hnext with
  | @begin t ahead answered =>
    have hbegin : Query.turnsLeft names ⟨.ask t, .empty⟩ = Walk.empty.turnsLeft names + 5 := rfl
    rw [turnsLeft_current, turnsLeft_idle, hbegin, List.length_cons, Nat.succ_mul]
    omega
  | silent hq =>
    have hstep := h.within hnames
    rw [hq] at hstep
    simp only [turnsLeft_current, Step.Within] at hstep ⊢
    omega
  | core hq =>
    have hstep := h.within hnames
    rw [hq] at hstep
    simp only [turnsLeft_current, Step.Within] at hstep ⊢
    omega
  | @answer t q set ahead answered hq =>
    have hone : 1 ≤ q.turnsLeft names := one_le_turnsLeft
    simp only [turnsLeft_current, turnsLeft_idle]
    omega

/-- An access to the memo leaves a worker less to do, whatever it finds there. -/
theorem access_turnsLeft (hnames : worker.Covered layer known names)
    (h : worker.Sound layer known memo) (hnext : worker.Access layer memo memo' next) :
    next.turnsLeft names + 1 ≤ worker.turnsLeft names := by
  cases hnext with
  | @hit t u q miss found set ahead answered hq hset =>
    have hstep := h.within hnames
    rw [hq] at hstep
    have hfound := hstep.1 set
    simp only [turnsLeft_current]
    omega
  | @miss t u q miss found ahead answered hq hset =>
    have hstep := h.within hnames
    rw [hq] at hstep
    have hmiss := hstep.2
    simp only [turnsLeft_current]
    omega
  | store hq =>
    have hstep := h.within hnames
    rw [hq] at hstep
    simp only [turnsLeft_current, Step.Within] at hstep ⊢
    omega

/-- A worker that settles has no more to do than before. -/
theorem settles_turnsLeft {settled : Worker} (hmemo : memo.Sound (layer.hierarchy known))
    (hnames : worker.Covered layer known names) (h : worker.Sound layer known memo)
    (hsettles : worker.Settles layer known settled) :
    settled.turnsLeft names ≤ worker.turnsLeft names := by
  have hruns := hsettles.1
  clear hsettles
  have hboth : worker.Moves layer known memo memo settled ∧
      settled.turnsLeft names ≤ worker.turnsLeft names := by
    induction hruns with
    | refl => exact ⟨.refl hmemo h, Nat.le_refl _⟩
    | tail _ hnext ih =>
      obtain ⟨hmoves, hle⟩ := ih
      have hadvance := advance_advance hnext
      have hlt := advance_turnsLeft (hmoves.covered hnames) hmoves.sound hadvance
      exact ⟨hmoves.trans (advance_moves hmemo hmoves.sound hadvance), by omega⟩
  exact hboth.2

/-- **A worker settles**: what it does without the memo comes to an end. -/
theorem exists_settles (hmemo : memo.Sound (layer.hierarchy known))
    (hnames : worker.Covered layer known names) (h : worker.Sound layer known memo) :
    ∃ settled, worker.Settles layer known settled := by
  -- The induction is on what is left to do, which each step of the worker lowers; that the worker
  -- stays on its way meanwhile (`advance_moves`) is what keeps the measure falling.
  induction hn : worker.turnsLeft names using Nat.strongRecOn generalizing worker with
  | ind n ih =>
    cases hnext : worker.advance layer known with
    | none => exact ⟨worker, .refl, hnext⟩
    | some next =>
      have hadvance := advance_advance hnext
      have hmoves := advance_moves hmemo h hadvance
      have hlt := advance_turnsLeft hnames h hadvance
      obtain ⟨settled, hruns, hrest⟩ :=
        ih (next.turnsLeft names) (by omega) (hmoves.covered hnames) hmoves.sound rfl
      exact ⟨settled, .head hnext hruns, hrest⟩

/-- A worker that can do nothing without the memo is done, or needs the memo. -/
theorem done_or_access (h : worker.advance layer known = none) (memo : Memo) :
    worker.Done ∨ ∃ next memo', worker.access layer memo = some (next, memo') := by
  obtain ⟨current, ahead, answered⟩ := worker
  rcases current with _ | ⟨t, q⟩
  · cases ahead with
    | nil => exact .inl ⟨rfl, rfl⟩
    | cons t ahead => cases h
  · simp only [Worker.advance, Worker.access] at h ⊢
    cases hq : layer.step q with
    | silent q' => rw [hq] at h; cases h
    | core u q' => rw [hq] at h; cases h
    | answer set => rw [hq] at h; cases h
    | lookup u hit miss => exact .inr ⟨_, _, rfl⟩
    | store u set q' => exact .inr ⟨_, _, rfl⟩

/-! ## 2. The crew -/

/-- What a crew still has to do. -/
def Crew.turnsLeft (names : List TypeName) (crew : Crew) : Nat :=
  (crew.workers.map (Worker.turnsLeft names)).sum

/-- The names have all that can be reached from the types of the plans. -/
def CoversPlans (layer : Layer) (known : TypeName → TypeSet) (names : List TypeName)
    (plans : List (List TypeName)) : Prop :=
  ∀ plan ∈ plans, ∀ t ∈ plan, (Question.ancestors t).Covered layer known (fun _ => none) names

theorem Crew.Sound.covered (h : crew.Sound layer known plans)
    (hnames : CoversPlans layer known names plans) (hw : worker ∈ crew.workers) :
    worker.Covered layer known names := by
  intro t ht
  refine hnames worker.plan ?_ t ht
  rw [← h.plans_eq]
  exact List.mem_map_of_mem hw

/-- **A crew that is not done can take a step.** -/
theorem exists_step (h : crew.Sound layer known plans)
    (hnames : CoversPlans layer known names plans) (hdone : ¬ crew.Done) :
    ∃ next, crew.Step layer known next := by
  obtain ⟨memo, workers⟩ := crew
  obtain ⟨worker, hw, hnot⟩ : ∃ worker ∈ workers, ¬ worker.Done := by
    simpa [Crew.Done] using hdone
  rcases done_or_access (h.settled worker hw) memo with hdone | ⟨accessed, memo', haccess⟩
  · exact absurd hdone hnot
  · have hmoves := access_moves h.right (h.workers worker hw) (access_access haccess)
    obtain ⟨settled, hsettles⟩ :=
      exists_settles hmoves.right (hmoves.covered (h.covered hnames hw)) hmoves.sound
    obtain ⟨front, back, rfl⟩ := List.append_of_mem hw
    exact ⟨_, .turn haccess hsettles⟩

/-- A step leaves a crew less to do. -/
theorem step_turnsLeft {next : Crew} (h : crew.Sound layer known plans)
    (hnames : CoversPlans layer known names plans) (hstep : crew.Step layer known next) :
    next.turnsLeft names + 1 ≤ crew.turnsLeft names := by
  cases hstep with
  | @turn memo memo' front back worker accessed settled haccess hsettles =>
    have hw : worker ∈ front ++ worker :: back := by simp
    have hcovered := h.covered hnames hw
    have hmoves := access_moves h.right (h.workers worker hw) (access_access haccess)
    have hlt := access_turnsLeft hcovered (h.workers worker hw) (access_access haccess)
    have hle := settles_turnsLeft hmoves.right (hmoves.covered hcovered) hmoves.sound hsettles
    simp only [Crew.turnsLeft, List.map_append, List.map_cons, List.sum_append, List.sum_cons]
    omega

/-- **A crew gets done.** -/
theorem exists_done (hnames : CoversPlans layer known names plans)
    (h : crew.Sound layer known plans) : ∃ later, crew.Later layer known later ∧ later.Done := by
  induction hn : crew.turnsLeft names using Nat.strongRecOn generalizing crew with
  | ind n ih =>
    by_cases hdone : crew.Done
    · exact ⟨crew, .refl, hdone⟩
    · obtain ⟨next, hstep⟩ := exists_step h hnames hdone
      have hlt := step_turnsLeft h hnames hstep
      obtain ⟨later, hlater, hdone⟩ :=
        ih (next.turnsLeft names) (by omega) (crew_step_sound h hstep).1 rfl
      exact ⟨later, .head hstep hlater, hdone⟩

/-- **A crew can begin.** -/
theorem exists_begins : ∀ {plans : List (List TypeName)}, CoversPlans layer known names plans →
    ∃ crew, Crew.Begins layer known plans crew
  | [], _ => ⟨⟨.empty, []⟩, rfl, .nil⟩
  | plan :: plans, hnames => by
    obtain ⟨⟨_, workers⟩, _, hworkers⟩ :=
      exists_begins fun p hp => hnames p (List.mem_cons_of_mem _ hp)
    have hcovered : (Worker.new plan).Covered layer known names := by
      intro t ht
      exact hnames plan List.mem_cons_self t (by simpa [Worker.plan, Worker.new] using ht)
    obtain ⟨settled, hsettles⟩ :=
      exists_settles Memo.sound_empty hcovered (Worker.sound_new plan)
    exact ⟨⟨.empty, settled :: workers⟩, rfl, .cons hsettles hworkers⟩

end Ancestry.Closure
