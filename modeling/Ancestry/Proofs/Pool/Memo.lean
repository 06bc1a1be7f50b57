import Ancestry.Proofs.Pool.Answers

/-!
# What a pool leaves in the memo

The requests of a pool write to one memo, which may have had something in it from the beginning.
What they have added at any moment was reached from a type that was asked about, and the supertypes
of what they have added are there too, or are about to be written by some request (`Pool.Filling`).
In the end nobody is about to write anything, so what was added is all that can be reached
(`batch_fills`).

An ascent does not go on from a type that was in the memo at the beginning.  If what the memo had
was right, the sets are the same as if it did.
-/

namespace Ancestry.Closure

variable {ρ σ : Type} {layer : Layer} {below known : TypeName → TypeSet}
  {given : TypeName → Option TypeSet} {core : Service ρ σ} {valid : σ → Prop}
  {underway : TypeName → ρ → Prop} {left : ρ → Nat} {pace crowd n : Nat} {t : TypeName}
  {thread next : Thread ρ} {world world' : World σ Watch} {old memo : Memo}
  {pool pool' : Pool (Thread ρ) (World σ Watch)} {names mentioned asked : List TypeName}
  {jobs : Int}

/-! ## 1. What is given -/

/-- What a right memo has can be taken as given. -/
theorem inherits_given_iff (h : old.Sound (layer.hierarchy below)) {t x : TypeName} :
    (layer.hierarchy below old.peek?).Inherits t x ↔ (layer.hierarchy below).Inherits t x := by
  constructor
  · intro hx
    induction hx with
    | given ht hx => exact (h _ _ ht _).mp hx
    | self _ hc => exact .self rfl hc
    | above hts _ ih => exact .above ⟨rfl, hts.2⟩ ih
  · intro hx
    induction hx with
    | given ht => cases ht
    | @self t _ hc =>
      cases ht : old.peek? t with
      | none => exact .self ht hc
      | some set => exact .given ht ((h t set ht t).mpr (.self rfl hc))
    | @above t s x hts hx ih =>
      cases ht : old.peek? t with
      | none => exact .above ⟨ht, hts.2⟩ ih
      | some set => exact .given ht ((h t set ht x).mpr (.above hts hx))

theorem sound_given (hold : old.Sound (layer.hierarchy below))
    (h : memo.Sound (layer.hierarchy below)) : memo.Sound (layer.hierarchy below old.peek?) :=
  fun t set hset x => (h t set hset x).trans (inherits_given_iff hold).symm

/-- The memo has what `old` has, and the types that can be reached beside it from those of `asked`
for which the core registry does not answer at once. -/
def Layer.Fills (layer : Layer) (below : TypeName → TypeSet) (old : Memo) (asked : List TypeName)
    (memo : Memo) : Prop :=
  ∀ t, memo.Has t ↔ old.Has t ∨
    ∃ u ∈ asked, ¬ layer.AnswersAtOnce below u ∧ (layer.hierarchy below old.peek?).Reaches u t

/-! ## 2. The turns of a request -/

/-- **A turn of a request is a step of its query**, or none: while the core registry is at work, and
while an event is delivered, the query does nothing. -/
theorem Thread.Turn.moves (hcore : core.Serves valid below underway left pace)
    (h : thread.Underway layer below underway t) (hvalid : valid world.core)
    (hmemo : world.memo.Sound (layer.hierarchy below given))
    (hgiven : ∀ u, world.memo.peek? u = none → given u = none)
    (hgood : thread.top.query.Good layer below given world.memo.Has (.ancestors t))
    (hturn : thread.Turn layer core world (.inl next, world')) :
    Query.Moves layer below given (.ancestors t) world.memo thread.top.query world'.memo
      next.top.query := by
  cases hturn with
  | deliver hd => exact .refl hmemo hgood
  | wait hd hq hreply => exact .refl hmemo hgood
  | @core u next set state hd hq hreply =>
    have hbelow := h.reply hcore hvalid hq
    rw [hreply] at hbelow
    cases hbelow.1
    exact moves_core hmemo hgood hq
  | silent hd hq => exact moves_silent hmemo hgood hq
  | hit hd hq hset => exact moves_hit hmemo hgood hq hset
  | miss hd hq hset => exact moves_miss hmemo hgood hq (hgiven _ hset)
  | store hd hq => exact moves_store hmemo hgood hq

/-- A request that is answered leaves the memo as it is, owes nothing, and has its type in the memo
if it has looked there at all. -/
theorem Thread.Turn.ends {set : TypeSet}
    (hgood : thread.top.query.Good layer below given world.memo.Has (.ancestors t))
    (hturn : thread.Turn layer core world (.inr (.ok set), world')) :
    world' = world ∧ (∀ s, s ∉ thread.top.query.owed) ∧
      (¬ layer.AnswersAtOnce below t → world.memo.Has t) := by
  cases hturn with
  | answer hd hq =>
    have hstep := step_good hgood
    rw [hq] at hstep
    exact ⟨rfl, notMem_owed hq (by simp), fun hat => hstep.2 t ⟨rfl, hat⟩⟩

/-! ## 3. A pool at work -/

/-- What there is to say of the memo while the requests of a pool are at work, where the types of
`asked` are asked about or have been asked about before. -/
structure Pool.Filling (layer : Layer) (below : TypeName → TypeSet) (old : Memo)
    (asked : List TypeName) (pool : Pool (Thread ρ) (World σ Watch)) : Prop where
  keeps : old.Grows pool.state.memo
  running : ∀ e ∈ pool.running,
    e.2.top.query.Good layer below old.peek? pool.state.memo.Has (.ancestors e.1)
  settled : ∀ u ∈ asked, ¬ layer.AnswersAtOnce below u →
    pool.state.memo.Has u ∨ u ∈ pool.ahead ∨ u ∈ pool.running.map (·.1)
  origin : ∀ t, pool.state.memo.Has t → old.Has t ∨
    ∃ u ∈ asked, ¬ layer.AnswersAtOnce below u ∧ (layer.hierarchy below old.peek?).Reaches u t
  closed : ∀ t, pool.state.memo.Has t → old.Has t ∨ ∀ s ∈ (layer.hierarchy below).above t,
    pool.state.memo.Has s ∨ ∃ e ∈ pool.running, s ∈ e.2.top.query.owed

section
variable {ahead front back : List TypeName} {started ended running : List (TypeName × Thread ρ)}
  {finished : List (TypeName × Outcome)}

/-- A request that is taken up is at work for its type from then on. -/
theorem Pool.Filling.start
    (h : Filling layer below old asked ⟨front ++ t :: back, running, finished, world⟩) :
    Filling layer below old asked
      ⟨front ++ back, running ++ [(t, (layer.service core).request t)], finished, world⟩ := by
  refine ⟨h.keeps, fun e he => ?_, fun u hu hat => ?_, h.origin, fun u hu => ?_⟩
  · rcases List.mem_append.mp he with he | he
    · exact h.running e he
    · cases List.mem_singleton.mp he
      exact good_activation (.ancestors t)
  · have hwaits := h.settled u hu hat
    simp only [List.mem_append, List.mem_cons, List.map_append, List.map_cons, List.map_nil,
      List.not_mem_nil, or_false] at hwaits ⊢
    tauto
  · refine (h.closed u hu).imp_right fun hup s hs => (hup s hs).imp_right ?_
    rintro ⟨e, he, howed⟩
    exact ⟨e, List.mem_append_left _ he, howed⟩

/-- While a request goes on, what it writes is reached from its type, and the supertypes of what it
writes are there or are owed by the same request. -/
theorem Pool.Filling.turn (ht : t ∈ asked)
    (h : Filling layer below old asked ⟨ahead, started ++ (t, thread) :: ended, finished, world⟩)
    (hmoves : Query.Moves layer below old.peek? (.ancestors t) world.memo thread.top.query
      world'.memo next.top.query) :
    Filling layer below old asked ⟨ahead, started ++ (t, next) :: ended, finished, world'⟩ := by
  have howed : ∀ s, world'.memo.Has s ∨ s ∈ next.top.query.owed → world'.memo.Has s ∨
      ∃ e ∈ started ++ (t, next) :: ended, s ∈ e.2.top.query.owed :=
    fun s hs => hs.imp_right fun hs => ⟨(t, next), by simp, hs⟩
  refine ⟨h.keeps.trans hmoves.grows, fun e he => ?_, fun u hu hat => ?_, fun u hu => ?_,
    fun u hu => ?_⟩
  · rcases eq_or_mem_of_mem (b := (t, thread)) he with rfl | he
    · exact hmoves.good
    · exact (h.running e he).mono hmoves.grows.has
  · simpa using (h.settled u hu hat).imp_left (hmoves.grows.has u)
  · rcases hmoves.new u hu with hu | ⟨⟨start, ⟨rfl, hat⟩, hreach⟩, _⟩
    · exact h.origin u hu
    · exact .inr ⟨t, ht, hat, hreach⟩
  · rcases hmoves.new u hu with hu | ⟨_, habove⟩
    · refine (h.closed u hu).imp_right fun hup s hs => ?_
      rcases hup s hs with hs | ⟨e, he, hs⟩
      · exact .inl (hmoves.grows.has s hs)
      · rcases eq_or_mem_of_mem (b := (t, next)) he with rfl | he
        · exact howed s (hmoves.owed s hs)
        · exact .inr ⟨e, he, hs⟩
    · exact .inr fun s hs => howed s (habove s hs)

/-- A request that is done owes nothing to the memo, which has its type. -/
theorem Pool.Filling.finish {outcome : Outcome}
    (h : Filling layer below old asked ⟨ahead, started ++ (t, thread) :: ended, finished, world⟩)
    (hfree : ∀ s, s ∉ thread.top.query.owed)
    (hhas : ¬ layer.AnswersAtOnce below t → world.memo.Has t) :
    Filling layer below old asked
      ⟨ahead, started ++ ended, (t, outcome) :: finished, world⟩ := by
  have hothers : ∀ e, e ∈ started ++ (t, thread) :: ended ↔
      e = (t, thread) ∨ e ∈ started ++ ended :=
    fun e => List.perm_middle.mem_iff.trans List.mem_cons
  refine ⟨h.keeps, fun e he => h.running e ((hothers e).mpr (.inr he)), fun u hu hat => ?_,
    h.origin, fun u hu => ?_⟩
  · rcases h.settled u hu hat with hu | hu | hu
    · exact .inl hu
    · exact .inr (.inl hu)
    · obtain ⟨e, he, rfl⟩ := List.mem_map.mp hu
      rcases (hothers e).mp he with rfl | he
      · exact .inl (hhas hat)
      · exact .inr (.inr (List.mem_map_of_mem he))
  · refine (h.closed u hu).imp_right fun hup s hs => (hup s hs).imp_right ?_
    rintro ⟨e, he, hs⟩
    rcases (hothers e).mp he with rfl | he
    · exact absurd hs (hfree s)
    · exact ⟨e, he, hs⟩

end

/-- **A step of a pool**, as far as the memo goes. -/
theorem Pool.Filling.step (hcore : core.Serves valid below underway left pace)
    (hserves : (layer.service core).Serves (World.Quiet layer below valid) known
      (Thread.Underway layer below underway) (Thread.turnsLeft mentioned pace left) n)
    (hold : old.Sound (layer.hierarchy below))
    (hsound : pool.Sound (World.Quiet layer below valid) known
      (Thread.Underway layer below underway) (distinct names))
    (hnames : ∀ t ∈ names, t ∈ asked) (h : pool.Filling layer below old asked)
    (hstep : Pool.Step (layer.service core) crowd pool pool') :
    pool'.Filling layer below old asked := by
  cases hstep with
  | start hfree => exact h.start
  | @turn ahead front back t thread thread' finished world world' hturn =>
    have hmem : (t, thread) ∈ front ++ (t, thread) :: back := by simp
    have hthread := hsound.running (t, thread) hmem
    have hkind := thread_turn layer core hthread.rest hsound.valid.calm
    rw [hturn] at hkind
    refine h.turn (hnames t (mem_distinct.mp (hsound.mem_asked hmem))) ?_
    exact hkind.moves hcore hthread hsound.valid.core (sound_given hold hsound.valid.memo)
      (fun u hu => h.keeps.peek?_eq_none hu) (h.running _ hmem)
  | @finish ahead front back t thread outcome finished world world' hturn =>
    have hmem : (t, thread) ∈ front ++ (t, thread) :: back := by simp
    have hthread := hsound.running (t, thread) hmem
    have hkind := thread_turn layer core hthread.rest hsound.valid.calm
    have hreply := hserves.turn t thread world hthread hsound.valid
    rw [hturn] at hkind hreply
    cases hreply.1
    obtain ⟨rfl, hfree, hhas⟩ := hkind.ends (h.running _ hmem)
    exact h.finish hfree hhas

theorem Pool.Filling.runs (hcore : core.Serves valid below underway left pace)
    (hserves : (layer.service core).Serves (World.Quiet layer below valid) known
      (Thread.Underway layer below underway) (Thread.turnsLeft mentioned pace left) n)
    (hold : old.Sound (layer.hierarchy below))
    (hsound : pool.Sound (World.Quiet layer below valid) known
      (Thread.Underway layer below underway) (distinct names))
    (hnames : ∀ t ∈ names, t ∈ asked) (h : pool.Filling layer below old asked) {steps : Nat}
    (hruns : Pool.Runs (layer.service core) crowd steps pool pool') :
    pool'.Filling layer below old asked := by
  induction hruns with
  | refl => exact h
  | step hruns hstep ih =>
    obtain ⟨hnext, _⟩ := pool_runs hserves hsound hruns
    exact (ih hsound h).step hcore hserves hold hnext hnames hstep

/-! ## 4. From batch to batch -/

/-- A pool begins with what earlier batches have left behind. -/
theorem Pool.filling_new (hkeeps : old.Grows world.memo)
    (hfills : layer.Fills below old asked world.memo) :
    (Pool.new names world : Pool (Thread ρ) _).Filling layer below old (asked ++ names) := by
  refine ⟨hkeeps, fun e he => absurd he List.not_mem_nil, fun u hu hat => ?_, fun t ht => ?_,
    fun t ht => ?_⟩
  · rcases List.mem_append.mp hu with hu | hu
    · exact .inl ((hfills u).mpr (.inr ⟨u, hu, hat, .refl⟩))
    · exact .inr (.inl (mem_distinct.mpr hu))
  · refine ((hfills t).mp ht).imp_right ?_
    rintro ⟨u, hu, hreached⟩
    exact ⟨u, List.mem_append_left _ hu, hreached⟩
  · by_cases hgiven : old.Has t
    · exact .inl hgiven
    · obtain ⟨u, hu, hat, hreach⟩ := ((hfills t).mp ht).resolve_left hgiven
      refine .inr fun s hs => .inl ((hfills s).mpr (.inr ⟨u, hu, hat, hreach.tail ⟨?_, hs⟩⟩))
      exact Option.eq_none_iff_forall_ne_some.mpr fun set hset => hgiven ⟨set, hset⟩

/-- **A pool that is done has left in the memo what can be reached.** -/
theorem Pool.Filling.fills (h : pool.Filling layer below old asked) (hdone : pool.Done) :
    layer.Fills below old asked pool.state.memo := by
  have hclosed : ∀ t, pool.state.memo.Has t → old.Has t ∨
      ∀ s ∈ (layer.hierarchy below).above t, pool.state.memo.Has s := by
    intro t ht
    refine (h.closed t ht).imp_right fun hup s hs => (hup s hs).resolve_right ?_
    rintro ⟨e, he, _⟩
    rw [hdone.2] at he
    exact absurd he List.not_mem_nil
  refine fun t => ⟨h.origin t, ?_⟩
  rintro (⟨set, hset⟩ | ⟨u, hu, hat, hreach⟩)
  · exact ⟨set, h.keeps t set hset⟩
  · induction hreach with
    | refl =>
      have hsettled := h.settled u hu hat
      rw [hdone.1, hdone.2] at hsettled
      simpa using hsettled
    | @tail b c _ hlead ih =>
      rcases hclosed b ih with ⟨set, hset⟩ | hup
      · exact absurd (hlead.1.symm.trans hset) (by simp)
      · exact hup c hlead.2

/-- **What a batch leaves in the memo.** -/
theorem batch_fills (hcore : core.Serves valid below underway left pace)
    (hspans : layer.Spans below mentioned)
    (hknown : ∀ t, (Question.ancestors t).Answers layer below (fun _ => none) (known t))
    (hold : old.Sound (layer.hierarchy below)) (hworld : world.Quiet layer below valid)
    (hkeeps : old.Grows world.memo) (hfills : layer.Fills below old asked world.memo)
    {result : Listing} (hbatch : (layer.service core).Batch jobs names world result world') :
    old.Grows world'.memo ∧ layer.Fills below old (asked ++ names) world'.memo := by
  have hserves := layer_serves hcore hspans hknown
  cases hbatch with
  | ends hruns hdone houtcomes =>
    have hfilling := (Pool.filling_new hkeeps hfills).runs hcore hserves hold
      (Pool.sound_new hworld) (fun t ht => List.mem_append_right _ ht) hruns
    exact ⟨hfilling.keeps, hfilling.fills hdone⟩

/-- **What batches leave in the memo**, one after the other. -/
theorem rounds_fills (hcore : core.Serves valid below underway left pace)
    (hspans : layer.Spans below mentioned)
    (hknown : ∀ t, (Question.ancestors t).Answers layer below (fun _ => none) (known t))
    (hworld : world.Quiet layer below valid)
    {rounds : List (Int × List TypeName)} {results : List Listing}
    (hrounds : (layer.service core).Rounds rounds world results world') :
    world.memo.Grows world'.memo ∧
      layer.Fills below world.memo (rounds.map (·.2)).flatten world'.memo := by
  induction hrounds with
  | nil => exact ⟨.refl _, fun t => by simp⟩
  | concat hrounds hbatch ih =>
    obtain ⟨hkeeps, hfills⟩ := ih hworld
    obtain ⟨_, hquiet⟩ := rounds_results (layer_serves hcore hspans hknown) hworld hrounds
    rw [List.map_append, List.flatten_append, List.map_singleton, List.flatten_singleton]
    exact batch_fills hcore hspans hknown hworld.memo hquiet hkeeps hfills hbatch

end Ancestry.Closure
