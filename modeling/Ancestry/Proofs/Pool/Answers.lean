import Mathlib.Algebra.BigOperators.Group.List.Basic
import Ancestry.Proofs.Pool.Service
import Ancestry.Proofs.Query.Shared
import Ancestry.Proofs.Registry.Batch

/-!
# What a pool comes to

Nothing depends on the workers here but how long it takes.  Each step of a pool takes it nearer to
its end (`pool_step`), and until it is there something can happen in it (`Pool.done_or_step`).  In
the end each type that was to be asked about has its one answer, whichever request was done first,
so the list that is made of the answers is always the same (`gather_eq`).

This holds of any registry that serves.  What becomes of its state is another question.
-/

namespace Ancestry.Closure

variable {ρ σ : Type} {service : Service ρ σ} {valid : σ → Prop} {known : TypeName → TypeSet}
  {underway : TypeName → ρ → Prop} {left : ρ → Nat} {pace : Nat} {pool next last : Pool ρ σ}
  {crowd n : Nat} {jobs : Int} {names asked : List TypeName} {state state' : σ}

/-! ## 1. The requests of a pool -/

/-- The requests of a pool are under way and what has come to an end was answered.  Each of the
types to be asked about waits, is being asked about, or is done with. -/
structure Pool.Sound (valid : σ → Prop) (known : TypeName → TypeSet)
    (underway : TypeName → ρ → Prop) (asked : List TypeName) (pool : Pool ρ σ) : Prop where
  valid : valid pool.state
  running : ∀ e ∈ pool.running, underway e.1 e.2
  finished : ∀ e ∈ pool.finished, e.2 = .ok (known e.1)
  asked : (pool.ahead ++ (pool.running.map (·.1) ++ pool.finished.map (·.1))).Perm asked

/-- The steps that a pool still needs at most, where a request needs `pace` turns at most. -/
def Pool.stepsLeft (left : ρ → Nat) (pace : Nat) (pool : Pool ρ σ) : Nat :=
  pool.ahead.length * (pace + 1) + (pool.running.map fun e => left e.2).sum

theorem Pool.sound_new (h : valid state) :
    (Pool.new names state).Sound valid known underway (distinct names) := by
  refine ⟨h, fun e he => absurd he List.not_mem_nil, fun e he => absurd he List.not_mem_nil, ?_⟩
  simp [new]

theorem Pool.Sound.mem_asked (h : pool.Sound valid known underway asked) {e : TypeName × ρ}
    (he : e ∈ pool.running) : e.1 ∈ asked :=
  h.asked.mem_iff.mp (List.mem_append_right _ (List.mem_append_left _ (List.mem_map_of_mem he)))

/-- **A step keeps a pool sound**, and leaves fewer steps to come. -/
theorem pool_step (hserves : service.Serves valid known underway left pace)
    (h : pool.Sound valid known underway asked) (hstep : Pool.Step service crowd pool next) :
    next.Sound valid known underway asked ∧
      next.stepsLeft left pace + 1 ≤ pool.stepsLeft left pace := by
  cases hstep with
  | @start front back t running finished state hfree =>
    obtain ⟨hunderway, hpace⟩ := hserves.request t
    refine ⟨⟨h.valid, fun e he => ?_, h.finished, ?_⟩, ?_⟩
    · rcases List.mem_append.mp he with he | he
      · exact h.running e he
      · cases List.mem_singleton.mp he
        exact hunderway
    · refine List.Perm.trans (List.perm_iff_count.mpr fun u => ?_) h.asked
      simp only [List.map_append, List.map_cons, List.map_nil, List.count_append, List.count_cons,
        List.count_nil]
      omega
    · have hlength : (front ++ t :: back).length = (front ++ back).length + 1 := by simp; omega
      simp only [Pool.stepsLeft, hlength, List.map_append, List.map_cons, List.map_nil,
        List.sum_append, List.sum_cons, List.sum_nil, Nat.succ_mul]
      omega
  | @turn ahead front back t r r' finished state state' hturn =>
    have hreply := hserves.turn t r state (h.running (t, r) (by simp)) h.valid
    rw [hturn] at hreply
    obtain ⟨hunderway, hleft, hvalid⟩ := hreply
    refine ⟨⟨hvalid, fun e he => ?_, h.finished, ?_⟩, ?_⟩
    · rcases eq_or_mem_of_mem (b := (t, r)) he with rfl | he
      · exact hunderway
      · exact h.running e he
    · simpa using h.asked
    · simp only [Pool.stepsLeft, List.map_append, List.map_cons, List.sum_append, List.sum_cons]
      omega
  | @finish ahead front back t r outcome finished state state' hturn =>
    have hrunning := h.running (t, r) (by simp)
    have hreply := hserves.turn t r state hrunning h.valid
    rw [hturn] at hreply
    obtain ⟨houtcome, hvalid⟩ := hreply
    refine ⟨⟨hvalid, fun e he => h.running e ?_, fun e he => ?_, ?_⟩, ?_⟩
    · exact List.mem_append.mpr ((List.mem_append.mp he).imp_right (List.mem_cons_of_mem _))
    · rcases List.mem_cons.mp he with rfl | he
      · exact houtcome
      · exact h.finished e he
    · refine List.Perm.trans (List.perm_iff_count.mpr fun u => ?_) h.asked
      simp only [List.map_append, List.map_cons, List.count_append, List.count_cons]
      omega
    · have hone := hserves.one_le t r hrunning
      simp only [Pool.stepsLeft, List.map_append, List.map_cons, List.sum_append, List.sum_cons]
      omega

theorem pool_runs (hserves : service.Serves valid known underway left pace)
    (h : pool.Sound valid known underway asked) (hruns : Pool.Runs service crowd n pool last) :
    last.Sound valid known underway asked ∧
      last.stepsLeft left pace + n ≤ pool.stepsLeft left pace := by
  induction hruns with
  | refl => exact ⟨h, Nat.le_refl _⟩
  | step _ hstep ih =>
    obtain ⟨hnext, hle⟩ := ih h
    obtain ⟨hlast, hlt⟩ := pool_step hserves hnext hstep
    exact ⟨hlast, by omega⟩

/-- **No run goes on forever.** -/
theorem runs_le (hserves : service.Serves valid known underway left pace) (h : valid state)
    (hruns : Pool.Runs service crowd n (.new names state) last) :
    n ≤ Pool.stepsLeft left pace (.new names state) :=
  Nat.le_trans (Nat.le_add_left n _) (pool_runs hserves (Pool.sound_new h) hruns).2

/-! ## 2. The end of a pool -/

/-- **Nothing is stuck**: where there is a worker, something can happen in a pool until all queries
have come to an end. -/
theorem Pool.done_or_step (service : Service ρ σ) (hcrowd : 1 ≤ crowd) (pool : Pool ρ σ) :
    pool.Done ∨ ∃ next, Step service crowd pool next := by
  obtain ⟨ahead, running, finished, state⟩ := pool
  cases running with
  | cons e running =>
    obtain ⟨t, r⟩ := e
    -- The first of the requests is given a turn.
    change _ ∨ ∃ next, Step service crowd ⟨ahead, [] ++ (t, r) :: running, finished, state⟩ next
    cases hturn : service.turn r state with
    | mk reply state' =>
      cases reply with
      | inl r' => exact .inr ⟨_, .turn hturn⟩
      | inr outcome => exact .inr ⟨_, .finish hturn⟩
  | nil =>
    cases ahead with
    | nil => exact .inl ⟨rfl, rfl⟩
    | cons t ahead =>
      change _ ∨ ∃ next, Step service crowd ⟨[] ++ t :: ahead, [], finished, state⟩ next
      exact .inr ⟨_, .start hcrowd⟩

/-- Where runs are bounded, one of them comes to the end. -/
theorem Pool.exists_done (hcrowd : 1 ≤ crowd) {bound : Nat}
    (hbound : ∀ n last, Runs service crowd n pool last → n ≤ bound) :
    ∃ n last, Runs service crowd n pool last ∧ last.Done := by
  -- The longest run cannot go on.
  by_contra hnone
  have hlong : ∀ n, ∃ last, Runs service crowd n pool last := by
    intro n
    induction n with
    | zero => exact ⟨pool, .refl⟩
    | succ n ih =>
      obtain ⟨last, hruns⟩ := ih
      rcases last.done_or_step service hcrowd with hdone | ⟨next, hstep⟩
      · exact absurd ⟨n, last, hruns, hdone⟩ hnone
      · exact ⟨next, hruns.step hstep⟩
  obtain ⟨last, hruns⟩ := hlong (bound + 1)
  exact absurd (hbound _ last hruns) (by omega)

theorem one_le_workers (jobs : Int) (names : List TypeName) : 1 ≤ workers jobs names := by
  rw [workers]
  omega

/-! ## 3. The answers -/

/-- Outcomes in any order give each of their types its answer. -/
theorem answersOf_eq {outcomes : List (TypeName × Outcome)}
    (hall : ∀ e ∈ outcomes, e.2 = .ok (known e.1)) :
    ∃ answers, answersOf outcomes = .ok answers ∧
      ∀ t ∈ outcomes.map (·.1), answers[t]? = some (known t).toList := by
  induction outcomes using List.reverseRecOn with
  | nil => exact ⟨∅, rfl, fun t ht => absurd ht List.not_mem_nil⟩
  | append_singleton outcomes e ih =>
    obtain ⟨t, outcome⟩ := e
    obtain ⟨answers, heq, hanswers⟩ := ih fun e he => hall e (List.mem_append_left _ he)
    obtain rfl : outcome = .ok (known t) := hall (t, outcome) (by simp)
    refine ⟨answers.insert t (known t).toList, ?_, fun u hu => ?_⟩
    · rw [answersOf, List.foldlM_append, ← answersOf, heq]
      rfl
    · rw [Std.ExtTreeMap.getElem?_insert]
      by_cases he : t = u
      · simp [he]
      · rw [if_neg (by simpa using he)]
        exact hanswers u (by simpa [Ne.symm he] using hu)

/-- The types of a batch, each with the ascending list of its ancestors. -/
def listing (known : TypeName → TypeSet) (names : List TypeName) :
    List (TypeName × List TypeName) :=
  (distinct names).map fun t => (t, (known t).toList)

theorem mapM_entryOf {answers : Std.ExtTreeMap TypeName (List TypeName) compare}
    {ts : List TypeName} (h : ∀ t ∈ ts, answers[t]? = some (known t).toList) :
    ts.mapM (entryOf answers) = .ok (ts.map fun t => (t, (known t).toList)) := by
  induction ts with
  | nil => rfl
  | cons t ts ih =>
    have hrest := ih fun u hu => h u (List.mem_cons_of_mem t hu)
    rw [List.mapM_cons, entryOf, h t List.mem_cons_self, hrest]
    rfl

/-- **The answers are listed in the order of the batch**, in whatever order they have come. -/
theorem gather_eq {outcomes : List (TypeName × Outcome)}
    (hall : ∀ e ∈ outcomes, e.2 = .ok (known e.1))
    (hnames : ∀ t ∈ distinct names, t ∈ outcomes.map (·.1)) :
    gather names outcomes = .ok (listing known names) := by
  obtain ⟨answers, heq, hanswers⟩ := answersOf_eq hall
  rw [gather, heq]
  exact mapM_entryOf fun t ht => hanswers t (hnames t ht)

/-- **A pool that is done has all answers.** -/
theorem Pool.Sound.gather_eq (h : pool.Sound valid known underway (distinct names))
    (hdone : pool.Done) {outcomes : List (TypeName × Outcome)}
    (houtcomes : outcomes.Perm pool.finished) :
    gather names outcomes = .ok (listing known names) := by
  refine Closure.gather_eq (fun e he => h.finished e (houtcomes.mem_iff.mp he)) fun t ht => ?_
  have hall := h.asked.mem_iff.mpr ht
  rw [hdone.1, hdone.2, List.nil_append, List.map_nil, List.nil_append] at hall
  exact (houtcomes.map (·.1)).mem_iff.mpr hall

/-! ## 4. Batches, one after the other -/

/-- **A batch has a result**, whatever happens in its pool: no run of it goes on forever, and those
that cannot go on have all answers. -/
theorem exists_batch (hserves : service.Serves valid known underway left pace) (h : valid state)
    (jobs : Int) (names : List TypeName) :
    ∃ result state', service.Batch jobs names state result state' := by
  obtain ⟨n, last, hruns, hdone⟩ :=
    Pool.exists_done (one_le_workers jobs names) fun n last => runs_le (n := n) hserves h
  exact ⟨_, _, .ends hruns hdone (.refl _)⟩

theorem batch_result (hserves : service.Serves valid known underway left pace) (h : valid state)
    {result : Listing} (hbatch : service.Batch jobs names state result state') :
    result = .ok (listing known names) ∧ valid state' := by
  cases hbatch with
  | ends hruns hdone houtcomes =>
    obtain ⟨hsound, _⟩ := pool_runs hserves (Pool.sound_new h) hruns
    exact ⟨hsound.gather_eq hdone houtcomes, hsound.valid⟩

/-- **Every batch has its own answers**, whatever batches have come before. -/
theorem rounds_results (hserves : service.Serves valid known underway left pace) (h : valid state)
    {rounds : List (Int × List TypeName)} {results : List Listing}
    (hrounds : service.Rounds rounds state results state') :
    results = (rounds.map (·.2)).map (fun names => .ok (listing known names)) ∧ valid state' := by
  induction hrounds with
  | nil => exact ⟨rfl, h⟩
  | concat _ hbatch ih =>
    obtain ⟨hresults, hvalid⟩ := ih h
    obtain ⟨hresult, hvalid'⟩ := batch_result hserves hvalid hbatch
    rw [hresults, hresult, List.map_append, List.map_append]
    exact ⟨rfl, hvalid'⟩

/-- Any number of batches have results, one after the other. -/
theorem exists_rounds (hserves : service.Serves valid known underway left pace) (h : valid state)
    (rounds : List (Int × List TypeName)) :
    ∃ results state', service.Rounds rounds state results state' := by
  induction rounds using List.reverseRecOn with
  | nil => exact ⟨[], state, .nil⟩
  | append_singleton rounds round ih =>
    obtain ⟨results, state', hrounds⟩ := ih
    obtain ⟨_, hvalid⟩ := rounds_results hserves h hrounds
    obtain ⟨result, state'', hbatch⟩ := exists_batch hserves hvalid round.1 round.2
    exact ⟨_, state'', hrounds.concat hbatch⟩

end Ancestry.Closure
