import Ancestry.Proofs.Crew.Interleaving
import Ancestry.Proofs.Query.Books

/-!
# What is heard of a crew

Here a crew is watched move by move.  A worker may join at any time, and between any two moves of a
worker, whether it goes on by itself or comes to the memo, the others make theirs.  While it goes on
by itself a worker may open a core type of which nothing is known, and a listener hears of that.

Two workers may open the same type, and which of them does so first depends on the order of their
moves.  In the end it is the same for all of them: the listener has heard of the unknown types that
can be reached, and of no others (`history_ends`).
-/

namespace Ancestry.Closure

variable {layer : Layer} {known : TypeName → TypeSet} {kept : TypeName → Prop}
  {question : Question} {q : Query} {w : Walk} {memo memo' : Memo} {worker next : Worker}
  {plans : List (List TypeName)} {crew : Crew} {heard : List TypeName} {t : TypeName}

/-! ## 1. Moves and what is heard of them -/

/-- The unknown type of which a listener hears when the worker goes on without the memo, if there is
one. -/
def Worker.tells (layer : Layer) (known : TypeName → TypeSet) (worker : Worker) : List TypeName :=
  match worker.current with
  | none => []
  | some (_, q) =>
    match layer.step q with
    | .core u next => if (next (known u)).2 = some .coreUnknown then [u] else []
    | .silent _ => []
    | .lookup _ _ _ => []
    | .store _ _ _ => []
    | .answer _ => []

/-- How a crew with the given plans comes about, move by move, and the unknown types that a listener
hears of in the meantime, the last one in front. -/
inductive Crew.History (layer : Layer) (known : TypeName → TypeSet) :
    List (List TypeName) → Crew → List TypeName → Prop
  | start : History layer known [] ⟨.empty, []⟩ []
  | join {plans : List (List TypeName)} {memo : Memo} {workers : List Worker}
    {heard : List TypeName} (plan : List TypeName)
    (h : History layer known plans ⟨memo, workers⟩ heard) :
    History layer known (plan :: plans) ⟨memo, .new plan :: workers⟩ heard
  | advance {plans : List (List TypeName)} {memo : Memo} {front back : List Worker}
    {worker next : Worker} {heard : List TypeName}
    (h : History layer known plans ⟨memo, front ++ worker :: back⟩ heard)
    (hnext : worker.advance layer known = some next) :
    History layer known plans ⟨memo, front ++ next :: back⟩ (worker.tells layer known ++ heard)
  | access {plans : List (List TypeName)} {memo memo' : Memo} {front back : List Worker}
    {worker next : Worker} {heard : List TypeName}
    (h : History layer known plans ⟨memo, front ++ worker :: back⟩ heard)
    (hnext : worker.access layer memo = some (next, memo')) :
    History layer known plans ⟨memo', front ++ next :: back⟩ heard

/-! ## 2. What a step opens -/

/-- A step that opens no unknown type without telling of it, and stores only what was opened. -/
def Step.Open (layer : Layer) (known : TypeName → TypeSet) (question : Question) (q : Query) :
    Step → Prop
  | .silent next => ∀ u ∈ next.walk.order, u ∈ q.walk.order ∨ layer.unknown known u = false
  | .core u next =>
    (∀ v ∈ (next (known u)).1.walk.order, v ∈ q.walk.order ∨ layer.unknown known v = false ∨
      v = u ∧ (next (known u)).2 = some .coreUnknown) ∧
    ((next (known u)).2 = some .coreUnknown → layer.unknown known u = true ∧
      ∃ start, question.Seeks layer known start ∧ (layer.hierarchy known).Reaches start u)
  | .lookup _ hit miss =>
    (∀ set, (hit set).walk.order = q.walk.order) ∧ miss.walk.order = q.walk.order
  | .store u _ next => u ∈ q.walk.order ∧ next.walk.order = q.walk.order
  | .answer _ => True

theorem order_resume {set : TypeSet} : (Layer.resume w set).walk.order = w.order := rfl

theorem order_leave (w : Walk) (f : Frame) : (Layer.leave w f).walk.order = w.order := by
  simp only [Layer.leave]
  split
  · rw [order_resume, Walk.order_yield]
  · exact Walk.order_yield

/-- A type that is entered is opened.  If it is unknown, that is told. -/
theorem enter_open {u : TypeName}
    (h : Query.Good layer known (fun _ => none) kept question ⟨.enter u, w⟩) :
    (layer.step ⟨.enter u, w⟩).Open layer known question ⟨.enter u, w⟩ := by
  obtain ⟨start, _, hseeks, _⟩ := h.phase
  have hbooks := step_books h trivial hseeks
  simp only [Layer.step] at hbooks ⊢
  rcases fetch_eq layer known (fun _ => none) u _ with ⟨hc, hfetch⟩ | ⟨hc, _, hfetch⟩
  · rw [hfetch]
    intro v hv
    rcases (Walk.mem_order_enter ..).mp hv with rfl | hv
    · exact .inr (by simp [Layer.unknown, hc])
    · exact .inl hv
  · rw [hfetch] at hbooks ⊢
    obtain ⟨_, _, hgoes⟩ := hbooks
    refine ⟨fun v hv => ?_, fun hevent => ⟨?_, start, hseeks, ?_⟩⟩
    · rcases (Walk.mem_order_enter ..).mp hv with rfl | hv
      · by_cases hk : (known v).isEmpty
        · exact .inr (.inr ⟨rfl, by simp [hk]⟩)
        · exact .inr (.inl (by simp [Layer.unknown, hk]))
      · exact .inl hv
    · by_cases hk : (known u).isEmpty
      · simp [Layer.unknown, hc, hk]
      · simp [hk] at hevent
    · exact (hgoes.reached u (List.mem_singleton_self u)).1

theorem scan_open : (layer.step ⟨.scan, w⟩).Open layer known question ⟨.scan, w⟩ := by
  cases hframes : w.frames with
  | nil => simp [Layer.step, hframes, Step.Open]
  | cons f rest =>
    cases hpending : f.pending with
    | nil =>
      simp only [Layer.step, hframes, hpending, Step.Open]
      intro u hu
      rw [order_leave] at hu
      exact .inl hu
    | cons s pending =>
      simp only [Layer.step, hframes, hpending]
      split
      · intro u hu
        have horder : (w.drop.lower f.type (w.drop.orderOf s)).order = w.order := Walk.order_drop
        rw [horder] at hu
        exact .inl hu
      · split
        · intro u hu
          rw [Walk.order_collect, Walk.order_drop] at hu
          exact .inl hu
        · exact ⟨fun set => Walk.order_collect.trans Walk.order_drop, Walk.order_drop⟩

/-- **No step of a query for ancestors opens an unknown type unheard.** -/
theorem step_open (h : q.Good layer known (fun _ => none) kept question)
    (hquestion : question = .ancestors t) :
    (layer.step q).Open layer known question q := by
  obtain ⟨phase, w⟩ := q
  cases phase with
  | ask u =>
    by_cases hc : layer.space.contains u = true
    · simp only [Layer.step, if_pos hc, Step.Open]
      split
      · exact ⟨fun v hv => .inl hv, fun hevent => absurd hevent (by simp)⟩
      · exact ⟨fun v hv => .inl hv, fun hevent => absurd hevent (by simp)⟩
    · simp only [Layer.step, if_neg hc]
      exact fun v hv => .inl hv
  | consult u => exact ⟨fun set => rfl, rfl⟩
  | direct u =>
    have hdirect : question = .supertypes u := h.phase.1
    rw [hquestion] at hdirect
    cases hdirect
  | enter u => exact enter_open h
  | scan => exact scan_open
  | close set members =>
    obtain ⟨start, parts, _, hw, _, hmembers⟩ := h.phase
    cases members with
    | nil => exact fun v hv => .inl hv
    | cons u members =>
      refine ⟨(hw.entered_iff u).mpr (.inr ?_), rfl⟩
      exact (hmembers u List.mem_cons_self).1
  | answer set => trivial

/-! ## 3. What is heard of a worker -/

/-- The query that the worker is at has opened the type. -/
def Worker.Opened (worker : Worker) (t : TypeName) : Prop :=
  ∃ c ∈ worker.current, t ∈ c.2.walk.order

/-- What a worker opens it tells of, if the type is unknown, and it tells of nothing else. -/
theorem advance_tells (h : worker.Sound layer known memo)
    (hnext : worker.advance layer known = some next) :
    (∀ t ∈ worker.tells layer known, layer.unknown known t = true ∧
      ∃ u ∈ worker.plan, ¬ layer.AnswersAtOnce known u ∧ (layer.hierarchy known).Reaches u t) ∧
    ∀ t, next.Opened t → layer.unknown known t = true →
      worker.Opened t ∨ t ∈ worker.tells layer known := by
  cases advance_advance hnext with
  | begin =>
    refine ⟨fun t ht => absurd ht List.not_mem_nil, ?_⟩
    rintro t ⟨c, hc, ht⟩
    cases hc
    exact absurd ht (by simp [Walk.empty])
  | @silent asked q q' _ _ hq =>
    have hopen := step_open (h.current (asked, q) rfl) rfl
    rw [hq] at hopen
    refine ⟨fun t ht => absurd ht (by simp [Worker.tells, hq]), ?_⟩
    rintro t ⟨c, hc, ht⟩ hunknown
    cases hc
    rcases hopen t ht with ht | hknown
    · exact .inl ⟨_, rfl, ht⟩
    · exact absurd (hunknown.symm.trans hknown) (by simp)
  | @core asked u q step _ _ hq =>
    have hopen := step_open (h.current (asked, q) rfl) rfl
    rw [hq] at hopen
    simp only [Worker.tells, hq]
    constructor
    · intro t ht
      split at ht
      · next hevent =>
        cases List.mem_singleton.mp ht
        obtain ⟨hunknown, start, ⟨rfl, hat⟩, hreach⟩ := hopen.2 hevent
        exact ⟨hunknown, asked, by simp [Worker.plan], hat, hreach⟩
      · exact absurd ht List.not_mem_nil
    · rintro t ⟨c, hc, ht⟩ hunknown
      cases hc
      rcases hopen.1 t ht with ht | hknown | ⟨rfl, hevent⟩
      · exact .inl ⟨_, rfl, ht⟩
      · exact absurd (hunknown.symm.trans hknown) (by simp)
      · exact .inr (by simp [hevent])
  | answer hq =>
    refine ⟨fun t ht => absurd ht (by simp [Worker.tells, hq]), ?_⟩
    rintro t ⟨c, hc, _⟩
    cases hc

/-- What a worker writes to the memo it has opened. -/
theorem access_opened (h : worker.Sound layer known memo)
    (hnext : worker.access layer memo = some (next, memo')) :
    (∀ t, next.Opened t → worker.Opened t) ∧
      ∀ t, memo'.Has t → memo.Has t ∨ worker.Opened t := by
  cases access_access hnext with
  | @hit asked u q miss found set _ _ hq hset =>
    have hopen := step_open (h.current (asked, q) rfl) rfl
    rw [hq] at hopen
    refine ⟨?_, fun t ht => .inl ((Memo.has_get u).mp ht)⟩
    rintro t ⟨c, hc, ht⟩
    cases hc
    exact ⟨_, rfl, hopen.1 set ▸ ht⟩
  | @miss asked u q miss found _ _ hq hset =>
    have hopen := step_open (h.current (asked, q) rfl) rfl
    rw [hq] at hopen
    refine ⟨?_, fun t ht => .inl ((Memo.has_get u).mp ht)⟩
    rintro t ⟨c, hc, ht⟩
    cases hc
    exact ⟨_, rfl, hopen.2 ▸ ht⟩
  | @store asked u q q' set _ _ hq =>
    have hopen := step_open (h.current (asked, q) rfl) rfl
    rw [hq] at hopen
    constructor
    · rintro t ⟨c, hc, ht⟩
      cases hc
      exact ⟨_, rfl, hopen.2 ▸ ht⟩
    · intro t ht
      rcases Memo.has_of_has_store ht with ht | rfl
      · exact .inl ht
      · exact .inr ⟨_, rfl, hopen.1⟩

/-! ## 4. What is heard of the crew -/

/-- What holds at every moment of a history: all is right, what was heard of is unknown and can be
reached, and what is unknown was heard of when it was opened. -/
structure Crew.Overheard (layer : Layer) (known : TypeName → TypeSet)
    (plans : List (List TypeName)) (crew : Crew) (heard : List TypeName) : Prop where
  allRight : crew.Right layer known plans
  told : ∀ t ∈ heard, layer.unknown known t = true ∧ ∃ plan ∈ plans, ∃ u ∈ plan,
    ¬ layer.AnswersAtOnce known u ∧ (layer.hierarchy known).Reaches u t
  opened : ∀ worker ∈ crew.workers, ∀ t, worker.Opened t → layer.unknown known t = true → t ∈ heard
  stored : ∀ t, crew.memo.Has t → layer.unknown known t = true → t ∈ heard

theorem overheard_start : Crew.Overheard layer known [] ⟨.empty, []⟩ [] := by
  have hempty : ∀ t, ¬ Memo.empty.Has t := by
    rintro t ⟨set, hset⟩
    simp [Memo.empty, Memo.peek?] at hset
  exact ⟨⟨Memo.sound_empty, fun w hw => absurd hw List.not_mem_nil, rfl,
    fun t ht => absurd ht (hempty t), fun t ht => absurd ht (hempty t)⟩,
    fun t ht => absurd ht List.not_mem_nil, fun w hw => absurd hw List.not_mem_nil,
    fun t ht => absurd ht (hempty t)⟩

/-- **One more worker.** -/
theorem Crew.Overheard.join {workers : List Worker}
    (h : Crew.Overheard layer known plans ⟨memo, workers⟩ heard) (plan : List TypeName) :
    Crew.Overheard layer known (plan :: plans) ⟨memo, .new plan :: workers⟩ heard := by
  obtain ⟨⟨hmemo, hworkers, hplans, horigin, hclosed⟩, htold, hopened, hstored⟩ := h
  refine ⟨⟨hmemo, ?_, ?_, ?_, ?_⟩, ?_, ?_, hstored⟩
  · exact List.forall_mem_cons.mpr ⟨Worker.sound_new plan, hworkers⟩
  · rw [List.map_cons, hplans]
    rfl
  · intro t ht
    obtain ⟨p, hp, hreached⟩ := horigin t ht
    exact ⟨p, List.mem_cons_of_mem _ hp, hreached⟩
  · intro t ht s hs
    rcases hclosed t ht s hs with hs | ⟨w, hw, howed⟩
    · exact .inl hs
    · exact .inr ⟨w, List.mem_cons_of_mem _ hw, howed⟩
  · intro t ht
    obtain ⟨hunknown, p, hp, hreached⟩ := htold t ht
    exact ⟨hunknown, p, List.mem_cons_of_mem _ hp, hreached⟩
  · refine List.forall_mem_cons.mpr ⟨?_, hopened⟩
    rintro t ⟨c, hc, _⟩
    cases hc

theorem Crew.Overheard.plan_mem {front back : List Worker}
    (h : Crew.Overheard layer known plans ⟨memo, front ++ worker :: back⟩ heard) :
    worker.plan ∈ plans := by
  rw [← h.allRight.plans_eq]
  exact List.mem_map_of_mem (by simp)

/-- **A worker goes on without the memo.** -/
theorem Crew.Overheard.advance {front back : List Worker}
    (h : Crew.Overheard layer known plans ⟨memo, front ++ worker :: back⟩ heard)
    (hnext : worker.advance layer known = some next) :
    Crew.Overheard layer known plans ⟨memo, front ++ next :: back⟩
      (worker.tells layer known ++ heard) := by
  have hsound : worker.Sound layer known memo := h.allRight.workers worker (by simp)
  obtain ⟨htells, hopens⟩ := advance_tells hsound hnext
  refine ⟨h.allRight.moves (advance_moves h.allRight.right hsound (advance_advance hnext)), ?_, ?_,
    fun t ht hunknown => List.mem_append_right _ (h.stored t ht hunknown)⟩
  · intro t ht
    rcases List.mem_append.mp ht with ht | ht
    · obtain ⟨hunknown, hreached⟩ := htells t ht
      exact ⟨hunknown, worker.plan, h.plan_mem, hreached⟩
    · exact h.told t ht
  · intro w hw t ht hunknown
    rw [List.mem_append]
    rcases eq_or_mem_of_mem hw with rfl | hw
    · exact (hopens t ht hunknown).symm.imp_right fun ht => h.opened worker (by simp) t ht hunknown
    · exact .inr (h.opened w hw t ht hunknown)

/-- **A worker comes to the memo.** -/
theorem Crew.Overheard.access {front back : List Worker}
    (h : Crew.Overheard layer known plans ⟨memo, front ++ worker :: back⟩ heard)
    (hnext : worker.access layer memo = some (next, memo')) :
    Crew.Overheard layer known plans ⟨memo', front ++ next :: back⟩ heard := by
  have hsound : worker.Sound layer known memo := h.allRight.workers worker (by simp)
  obtain ⟨hopens, hstores⟩ := access_opened hsound hnext
  refine ⟨h.allRight.moves (access_moves h.allRight.right hsound (access_access hnext)), h.told, ?_,
    ?_⟩
  · intro w hw t ht hunknown
    rcases eq_or_mem_of_mem hw with rfl | hw
    · exact h.opened worker (by simp) t (hopens t ht) hunknown
    · exact h.opened w hw t ht hunknown
  · intro t ht hunknown
    rcases hstores t ht with ht | ht
    · exact h.stored t ht hunknown
    · exact h.opened worker (by simp) t ht hunknown

/-- **What holds at every moment of a history.** -/
theorem history_overheard (h : Crew.History layer known plans crew heard) :
    crew.Overheard layer known plans heard := by
  induction h with
  | start => exact overheard_start
  | join plan _ ih => exact ih.join plan
  | advance _ hnext ih => exact ih.advance hnext
  | access _ hnext ih => exact ih.access hnext

/-- **How every history ends.**  When all workers are done they have asked all their questions, and
each has its answer; the memo has the types that can be reached from those which the core registry
did not answer for; and of the unknown ones among these, and of no other types, the listener has
heard. -/
theorem history_ends (h : Crew.History layer known plans crew heard) (hdone : crew.Done) :
    crew.memo.Sound (layer.hierarchy known) ∧
    (∀ t, crew.memo.Has t ↔ ∃ plan ∈ plans, ∃ u ∈ plan,
      ¬ layer.AnswersAtOnce known u ∧ (layer.hierarchy known).Reaches u t) ∧
    (∀ t, t ∈ heard ↔ crew.memo.Has t ∧ layer.unknown known t = true) ∧
    crew.workers.map (fun worker => worker.answered.reverse.map (·.1)) = plans ∧
    ∀ worker ∈ crew.workers, ∀ e ∈ worker.answered,
      (Question.ancestors e.1).Answers layer known (fun _ => none) e.2 := by
  have hoverheard := history_overheard h
  have hright := hoverheard.allRight
  refine ⟨hright.right, fun t => hright.has_iff hdone, fun t => ⟨fun ht => ?_, fun ht => ?_⟩, ?_,
    fun worker hw e he => ((hright.workers worker hw).answered e he).1⟩
  · obtain ⟨hunknown, hreached⟩ := hoverheard.told t ht
    exact ⟨(hright.has_iff hdone).mpr hreached, hunknown⟩
  · exact hoverheard.stored t ht.1 ht.2
  · rw [← hright.plans_eq]
    refine List.map_congr_left fun worker hw => ?_
    simp [Worker.plan, (hdone worker hw).1, (hdone worker hw).2]

/-! ## 5. Every crew has a history -/

/-- What a worker does by itself is part of a history. -/
theorem Crew.History.advances {front back : List Worker} {settled : Worker}
    (h : Crew.History layer known plans ⟨memo, front ++ worker :: back⟩ heard)
    (hruns : Relation.ReflTransGen (fun w w' => w.advance layer known = some w') worker settled) :
    ∃ heard', Crew.History layer known plans ⟨memo, front ++ settled :: back⟩ heard' := by
  induction hruns with
  | refl => exact ⟨heard, h⟩
  | tail _ hnext ih =>
    obtain ⟨heard', h'⟩ := ih
    exact ⟨_, h'.advance hnext⟩

theorem exists_history_of_begins (h : crew.Begins layer known plans) :
    ∃ heard, Crew.History layer known plans crew heard := by
  obtain ⟨memo, workers⟩ := crew
  obtain ⟨hmemo, hworkers⟩ := h
  cases hmemo
  dsimp only at hworkers
  induction hworkers with
  | nil => exact ⟨[], .start⟩
  | @cons plan settled _ workers hsettles _ ih =>
    obtain ⟨heard, hhistory⟩ := ih
    have hjoined := hhistory.join plan
    rw [← List.nil_append (Worker.new plan :: workers)] at hjoined
    exact hjoined.advances hsettles.1

theorem Crew.History.exists_later {later : Crew} (h : Crew.History layer known plans crew heard)
    (hlater : crew.Later layer known later) :
    ∃ heard', Crew.History layer known plans later heard' := by
  induction hlater with
  | refl => exact ⟨heard, h⟩
  | tail _ hstep ih =>
    obtain ⟨heard', h'⟩ := ih
    cases hstep with
    | turn haccess hsettles => exact (h'.access haccess).advances hsettles.1

/-- **There is a history for all plans** in which all workers get done. -/
theorem exists_history {names : List TypeName} (hnames : CoversPlans layer known names plans) :
    ∃ crew heard, Crew.History layer known plans crew heard ∧ crew.Done := by
  obtain ⟨start, hbegins⟩ := exists_begins hnames
  obtain ⟨final, hlater, hdone⟩ := exists_done hnames (begins_sound hbegins)
  obtain ⟨_, hstart⟩ := exists_history_of_begins hbegins
  obtain ⟨heard, hfinal⟩ := hstart.exists_later hlater
  exact ⟨final, heard, hfinal, hdone⟩

end Ancestry.Closure
