import Ancestry.Proofs.Crew.Basic
import Ancestry.Proofs.Query.Shared

/-!
# What a crew has established

`Crew.Sound` is what every step of a crew keeps, whoever takes it.  The sets in the memo are right,
and each worker's query is on its way with whatever the others write in the meantime: of the memo
it needs no more than that it grows (`Query.Good.mono`).  For the contents of the memo in the end,
two things are kept besides: each type in it was reached from a type that a worker asked about, and
each supertype of a type in it is in it too, or is among the types that some worker has yet to
write.
-/

namespace Ancestry.Closure

variable {layer : Layer} {known : TypeName → TypeSet} {memo memo' : Memo} {worker next : Worker}
  {plans : List (List TypeName)} {crew : Crew}

/-! ## 1. What is true of a worker -/

/-- The types whose set a worker is about to write. -/
def Worker.owed (worker : Worker) : List TypeName :=
  worker.current.toList.flatMap fun c => c.2.owed

/-- The query of the worker is on its way, its answers are right, and what it was not answered at
once is in the memo. -/
structure Worker.Sound (layer : Layer) (known : TypeName → TypeSet) (memo : Memo)
    (worker : Worker) : Prop where
  current : ∀ c ∈ worker.current,
    c.2.Good layer known (fun _ => none) memo.Has (.ancestors c.1)
  answered : ∀ e ∈ worker.answered,
    (Question.ancestors e.1).Answers layer known (fun _ => none) e.2 ∧
      (¬ layer.AnswersAtOnce known e.1 → memo.Has e.1)

theorem Worker.Sound.mono (hgrows : memo.Grows memo') (h : worker.Sound layer known memo) :
    worker.Sound layer known memo' :=
  ⟨fun c hc => (h.current c hc).mono hgrows.has,
    fun e he => (h.answered e he).imp_right fun hhas hn => hgrows.has _ (hhas hn)⟩

/-- A worker that has not begun is on its way. -/
theorem Worker.sound_new (plan : List TypeName) : (Worker.new plan).Sound layer known memo :=
  ⟨fun c hc => absurd hc (by simp [Worker.new]), fun e he => absurd he (by simp [Worker.new])⟩

/-! ## 2. What a worker does to the memo -/

/-- What a worker can do without the memo. -/
inductive Worker.Advance (layer : Layer) (known : TypeName → TypeSet) : Worker → Worker → Prop
  | begin {t : TypeName} {ahead : List TypeName} {answered : List (TypeName × TypeSet)} :
    Advance layer known ⟨none, t :: ahead, answered⟩
      ⟨some (t, ⟨.ask t, .empty⟩), ahead, answered⟩
  | silent {t : TypeName} {q q' : Query} {ahead : List TypeName}
    {answered : List (TypeName × TypeSet)} (hq : layer.step q = .silent q') :
    Advance layer known ⟨some (t, q), ahead, answered⟩ ⟨some (t, q'), ahead, answered⟩
  | core {t u : TypeName} {q : Query} {next : TypeSet → Query × Option Occasion}
    {ahead : List TypeName} {answered : List (TypeName × TypeSet)}
    (hq : layer.step q = .core u next) :
    Advance layer known ⟨some (t, q), ahead, answered⟩
      ⟨some (t, (next (known u)).1), ahead, answered⟩
  | answer {t : TypeName} {q : Query} {set : TypeSet} {ahead : List TypeName}
    {answered : List (TypeName × TypeSet)} (hq : layer.step q = .answer set) :
    Advance layer known ⟨some (t, q), ahead, answered⟩ ⟨none, ahead, (t, set) :: answered⟩

/-- What `advance` computes is a step by the rules, and so is what `access` computes. -/
theorem advance_advance (h : worker.advance layer known = some next) :
    worker.Advance layer known next := by
  obtain ⟨current, ahead, answered⟩ := worker
  rcases current with _ | ⟨t, q⟩
  · cases ahead with
    | nil => cases h
    | cons t ahead =>
      cases h
      exact .begin
  · simp only [Worker.advance] at h
    cases hq : layer.step q with
    | silent q' =>
      rw [hq] at h
      cases h
      exact .silent hq
    | core u next =>
      rw [hq] at h
      cases h
      exact .core hq
    | lookup u hit miss => rw [hq] at h; cases h
    | store u set q' => rw [hq] at h; cases h
    | answer set =>
      rw [hq] at h
      cases h
      exact .answer hq

/-- What a worker can do to the memo. -/
inductive Worker.Access (layer : Layer) (memo : Memo) : Worker → Memo → Worker → Prop
  | hit {t u : TypeName} {q miss : Query} {found : TypeSet → Query} {set : TypeSet}
    {ahead : List TypeName} {answered : List (TypeName × TypeSet)}
    (hq : layer.step q = .lookup u found miss) (hset : memo.peek? u = some set) :
    Access layer memo ⟨some (t, q), ahead, answered⟩ (memo.get u).2
      ⟨some (t, found set), ahead, answered⟩
  | miss {t u : TypeName} {q miss : Query} {found : TypeSet → Query}
    {ahead : List TypeName} {answered : List (TypeName × TypeSet)}
    (hq : layer.step q = .lookup u found miss) (hset : memo.peek? u = none) :
    Access layer memo ⟨some (t, q), ahead, answered⟩ (memo.get u).2
      ⟨some (t, miss), ahead, answered⟩
  | store {t u : TypeName} {q q' : Query} {set : TypeSet} {ahead : List TypeName}
    {answered : List (TypeName × TypeSet)} (hq : layer.step q = .store u set q') :
    Access layer memo ⟨some (t, q), ahead, answered⟩ (memo.store u set)
      ⟨some (t, q'), ahead, answered⟩

theorem access_access (h : worker.access layer memo = some (next, memo')) :
    worker.Access layer memo memo' next := by
  obtain ⟨current, ahead, answered⟩ := worker
  rcases current with _ | ⟨t, q⟩
  · cases h
  · simp only [Worker.access, Memo.get_fst] at h
    cases hq : layer.step q with
    | silent q' => rw [hq] at h; cases h
    | core u q' => rw [hq] at h; cases h
    | answer set => rw [hq] at h; cases h
    | lookup u found miss =>
      rw [hq] at h
      dsimp only at h
      cases hset : memo.peek? u with
      | some set =>
        rw [hset] at h
        cases h
        exact .hit hq hset
      | none =>
        rw [hset] at h
        cases h
        exact .miss hq hset
    | store u set q' =>
      rw [hq] at h
      cases h
      exact .store hq

/-- A worker goes on as `next` while the memo comes to be `memo'`.  What is new in the memo was
reached from a type that the worker asks about, and nothing that the worker owes is forgotten. -/
structure Worker.Moves (layer : Layer) (known : TypeName → TypeSet) (memo : Memo) (worker : Worker)
    (memo' : Memo) (next : Worker) : Prop where
  right : memo'.Sound (layer.hierarchy known)
  grows : memo.Grows memo'
  sound : next.Sound layer known memo'
  plan : next.plan = worker.plan
  owed : ∀ s ∈ worker.owed, memo'.Has s ∨ s ∈ next.owed
  new : ∀ t, memo'.Has t → memo.Has t ∨
    (∃ u ∈ worker.plan, ¬ layer.AnswersAtOnce known u ∧ (layer.hierarchy known).Reaches u t) ∧
      ∀ s ∈ (layer.hierarchy known).above t, memo'.Has s ∨ s ∈ next.owed

/-- A worker may have done nothing, or one thing after the other. -/
theorem Worker.Moves.refl (hmemo : memo.Sound (layer.hierarchy known))
    (h : worker.Sound layer known memo) : worker.Moves layer known memo memo worker :=
  ⟨hmemo, .refl _, h, rfl, fun _ hs => .inr hs, fun _ ht => .inl ht⟩

theorem Worker.Moves.trans {memo'' : Memo} {later : Worker}
    (h : worker.Moves layer known memo memo' next)
    (h' : next.Moves layer known memo' memo'' later) :
    worker.Moves layer known memo memo'' later := by
  have howed : ∀ s, memo'.Has s ∨ s ∈ next.owed → memo''.Has s ∨ s ∈ later.owed := by
    rintro s (hs | hs)
    · exact .inl (h'.grows.has s hs)
    · exact h'.owed s hs
  refine ⟨h'.right, h.grows.trans h'.grows, h'.sound, h'.plan.trans h.plan, ?_, ?_⟩
  · exact fun s hs => howed s (h.owed s hs)
  · intro t ht
    rcases h'.new t ht with ht | ⟨hreached, habove⟩
    · rcases h.new t ht with ht | ⟨hreached, habove⟩
      · exact .inl ht
      · exact .inr ⟨hreached, fun s hs => howed s (habove s hs)⟩
    · rw [h.plan] at hreached
      exact .inr ⟨hreached, habove⟩

/-- A worker's query goes on. -/
theorem Worker.Sound.moves {t : TypeName} {q q' : Query} {ahead : List TypeName}
    {answered : List (TypeName × TypeSet)}
    (h : Worker.Sound layer known memo ⟨some (t, q), ahead, answered⟩)
    (hmoves : Query.Moves layer known (fun _ => none) (.ancestors t) memo q memo' q') :
    Worker.Moves layer known memo ⟨some (t, q), ahead, answered⟩ memo'
      ⟨some (t, q'), ahead, answered⟩ := by
  refine ⟨hmoves.right, hmoves.grows, ⟨?_, (h.mono hmoves.grows).answered⟩, rfl, ?_, ?_⟩
  · rintro c hc
    cases hc
    exact hmoves.good
  · intro s hs
    exact (hmoves.owed s (by simpa [owed] using hs)).imp_right fun hs => by simpa [owed] using hs
  · intro u hu
    refine (hmoves.new u hu).imp_right ?_
    rintro ⟨⟨start, ⟨rfl, hat⟩, hreach⟩, habove⟩
    refine ⟨⟨t, by simp [plan], hat, hreach⟩, fun s hs => ?_⟩
    exact (habove s hs).imp_right fun hs => by simpa [owed] using hs

/-- **What a worker does without the memo is right.** -/
theorem advance_moves (hmemo : memo.Sound (layer.hierarchy known))
    (h : worker.Sound layer known memo) (hnext : worker.Advance layer known next) :
    worker.Moves layer known memo memo next := by
  cases hnext with
  | begin =>
    refine ⟨hmemo, .refl _, ⟨?_, h.answered⟩, by simp [Worker.plan],
      fun s hs => absurd hs (by simp [Worker.owed]), fun _ ht => .inl ht⟩
    rintro c hc
    cases hc
    exact good_activation (.ancestors _)
  | @silent t q q' _ _ hq => exact h.moves (moves_silent hmemo (h.current (t, q) rfl) hq)
  | @core t u q next _ _ hq => exact h.moves (moves_core hmemo (h.current (t, q) rfl) hq)
  | @answer t q set _ _ hq =>
    have hstep := step_good (h.current (t, q) rfl)
    rw [hq] at hstep
    refine ⟨hmemo, .refl _, ⟨fun c hc => absurd hc (by simp), ?_⟩, by simp [Worker.plan], ?_,
      fun _ ht => .inl ht⟩
    · rintro e he
      rcases List.mem_cons.mp he with rfl | he
      · exact ⟨hstep.1, fun hn => hstep.2 t ⟨rfl, hn⟩⟩
      · exact h.answered e he
    · intro s hs
      exact absurd (by simpa [Worker.owed] using hs) (notMem_owed hq (by simp) s)

/-- **An access to the memo is right**, whatever the other workers have written to it. -/
theorem access_moves (hmemo : memo.Sound (layer.hierarchy known))
    (h : worker.Sound layer known memo) (hnext : worker.Access layer memo memo' next) :
    worker.Moves layer known memo memo' next := by
  cases hnext with
  | @hit t u q miss found set _ _ hq hset =>
    exact h.moves (moves_hit hmemo (h.current (t, q) rfl) hq hset)
  | @miss t u q miss found _ _ hq hset =>
    exact h.moves (moves_miss hmemo (h.current (t, q) rfl) hq rfl)
  | @store t u q q' set _ _ hq => exact h.moves (moves_store hmemo (h.current (t, q) rfl) hq)

/-- All that a worker does without the memo is right. -/
theorem settles_moves {settled : Worker} (hmemo : memo.Sound (layer.hierarchy known))
    (h : worker.Sound layer known memo) (hsettles : worker.Settles layer known settled) :
    worker.Moves layer known memo memo settled := by
  replace hsettles := hsettles.1
  induction hsettles with
  | refl => exact .refl hmemo h
  | tail _ hnext ih => exact ih.trans (advance_moves hmemo ih.sound (advance_advance hnext))

/-! ## 3. The crew -/

/-- What is kept by whatever a worker of a crew does, whose workers ask about the types of
`plans`. -/
structure Crew.Right (layer : Layer) (known : TypeName → TypeSet) (plans : List (List TypeName))
    (crew : Crew) : Prop where
  right : crew.memo.Sound (layer.hierarchy known)
  workers : ∀ worker ∈ crew.workers, worker.Sound layer known crew.memo
  plans_eq : crew.workers.map Worker.plan = plans
  origin : ∀ t, crew.memo.Has t → ∃ plan ∈ plans, ∃ u ∈ plan,
    ¬ layer.AnswersAtOnce known u ∧ (layer.hierarchy known).Reaches u t
  closed : ∀ t, crew.memo.Has t → ∀ s ∈ (layer.hierarchy known).above t,
    crew.memo.Has s ∨ ∃ worker ∈ crew.workers, s ∈ worker.owed

/-- What every step of a crew keeps: besides, no worker has anything left to do without the memo. -/
structure Crew.Sound (layer : Layer) (known : TypeName → TypeSet) (plans : List (List TypeName))
    (crew : Crew) : Prop extends Crew.Right layer known plans crew where
  settled : ∀ worker ∈ crew.workers, worker.advance layer known = none

/-- **All stays right in a crew when a worker goes on.** -/
theorem Crew.Right.moves {front back : List Worker}
    (h : Crew.Right layer known plans ⟨memo, front ++ worker :: back⟩)
    (hmoves : worker.Moves layer known memo memo' next) :
    Crew.Right layer known plans ⟨memo', front ++ next :: back⟩ := by
  have howed : ∀ s, memo'.Has s ∨ s ∈ next.owed →
      memo'.Has s ∨ ∃ w ∈ front ++ next :: back, s ∈ w.owed :=
    fun s hs => hs.imp_right fun hs => ⟨next, by simp, hs⟩
  refine ⟨hmoves.right, ?_, ?_, ?_, ?_⟩
  · intro w hw
    rcases eq_or_mem_of_mem hw with rfl | hw
    · exact hmoves.sound
    · exact (h.workers w hw).mono hmoves.grows
  · have hplans := h.plans_eq
    simp only [List.map_append, List.map_cons] at hplans ⊢
    rw [hmoves.plan]
    exact hplans
  · intro t ht
    rcases hmoves.new t ht with ht | ⟨hreached, _⟩
    · exact h.origin t ht
    · refine ⟨worker.plan, ?_, hreached⟩
      rw [← h.plans_eq]
      exact List.mem_map_of_mem (by simp)
  · intro t ht s hs
    rcases hmoves.new t ht with ht | ⟨_, habove⟩
    · rcases h.closed t ht s hs with hs | ⟨w, hw, hs⟩
      · exact .inl (hmoves.grows.has s hs)
      · rcases eq_or_mem_of_mem hw with rfl | hw
        · exact howed s (hmoves.owed s hs)
        · exact .inr ⟨w, hw, hs⟩
    · exact howed s (habove s hs)

/-- **A crew stays sound when a worker goes on.** -/
theorem Crew.Sound.moves {front back : List Worker}
    (h : Crew.Sound layer known plans ⟨memo, front ++ worker :: back⟩)
    (hmoves : worker.Moves layer known memo memo' next)
    (hsettled : next.advance layer known = none) :
    Crew.Sound layer known plans ⟨memo', front ++ next :: back⟩ := by
  refine ⟨h.toRight.moves hmoves, fun w hw => ?_⟩
  rcases eq_or_mem_of_mem hw with rfl | hw
  · exact hsettled
  · exact h.settled w hw

/-- **Every step keeps a crew sound**, and takes nothing out of the memo. -/
theorem crew_step_sound {next : Crew} (h : crew.Sound layer known plans)
    (hstep : crew.Step layer known next) :
    next.Sound layer known plans ∧ crew.memo.Grows next.memo := by
  cases hstep with
  | @turn memo memo' front back worker accessed settled haccess hsettles =>
    have hmoves := access_moves h.right (h.workers worker (by simp)) (access_access haccess)
    have hsettled := hmoves.trans (settles_moves hmoves.right hmoves.sound hsettles)
    exact ⟨h.moves hsettled hsettles.2, hsettled.grows⟩

/-- **A crew stays right**, and its memo grows. -/
theorem crew_later_sound {later : Crew} (h : crew.Sound layer known plans)
    (hlater : crew.Later layer known later) :
    later.Sound layer known plans ∧ crew.memo.Grows later.memo := by
  induction hlater with
  | refl => exact ⟨h, .refl _⟩
  | tail _ hstep ih =>
    obtain ⟨hs, hgrows⟩ := ih
    obtain ⟨hs', hgrows'⟩ := crew_step_sound hs hstep
    exact ⟨hs', hgrows.trans hgrows'⟩

/-- A crew that begins is sound. -/
theorem begins_sound (h : crew.Begins layer known plans) : crew.Sound layer known plans := by
  obtain ⟨memo, workers⟩ := crew
  obtain ⟨hmemo, hworkers⟩ := h
  cases hmemo
  dsimp only at hworkers
  have hempty : ∀ t, ¬ Memo.empty.Has t := fun t ⟨set, hset⟩ => by
    simp [Memo.empty, Memo.peek?] at hset
  have hall : (∀ worker ∈ workers, worker.Sound layer known .empty ∧
      worker.advance layer known = none) ∧ workers.map Worker.plan = plans := by
    induction hworkers with
    | nil => exact ⟨fun worker hw => absurd hw (by simp), rfl⟩
    | @cons plan worker _ _ hsettles _ ih =>
      have hmoves := settles_moves Memo.sound_empty (Worker.sound_new plan) hsettles
      refine ⟨?_, ?_⟩
      · intro w hw
        rcases List.mem_cons.mp hw with rfl | hw
        · exact ⟨hmoves.sound, hsettles.2⟩
        · exact ih.1 w hw
      · rw [List.map_cons, ih.2, hmoves.plan]
        rfl
  exact ⟨⟨Memo.sound_empty, fun w hw => (hall.1 w hw).1, hall.2, fun t ht => absurd ht (hempty t),
    fun t ht => absurd ht (hempty t)⟩, fun w hw => (hall.1 w hw).2⟩

end Ancestry.Closure
