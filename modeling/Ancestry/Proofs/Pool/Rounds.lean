import Ancestry.Proofs.Ascending
import Ancestry.Proofs.Pool.Memo

/-!
# Batches put to a registry by many workers

Batch after batch is put to a registry whose listeners only record.  The answers are those of a new
registry every time, and what is in its memo in the end is what was there in the beginning and what
the types of all batches need besides.  It does not matter how many jobs there are, in which order
the requests have their turns or which is done first, and no such order keeps a batch from its end
(`rounds_agree`).  As far as answers and memo go, the queries of a new registry might have been
asked one after the other (`rounds_one_by_one`).

A hook that asks queries of its own is left out: if it waits for a hit, then whether it asks, and
what comes to be in the memo by that, is up to the order.
-/

namespace Ancestry.Closure

variable {layer : Layer} {hooks : List Hook} {core : Registry} {names : List TypeName}
  {rounds : List (Int × List TypeName)} {results : List Listing}
  {world world' : World core.State Watch}

/-! ## 1. What is listed -/

/-- A list of types with their ancestors has the types of a batch, each once and in the order in
which they come first, and with each the members of the answer that a new registry gives, in
ascending order. -/
structure Layer.Lists (layer : Layer) (core : Registry) (names : List TypeName)
    (list : List (TypeName × List TypeName)) : Prop where
  nodup : (list.map (·.1)).Nodup
  types : ∀ t, t ∈ list.map (·.1) ↔ t ∈ names
  order : (list.map (·.1)).Pairwise fun t u => names.idxOf t < names.idxOf u
  ascending : ∀ e ∈ list, Ascending e.2
  members : ∀ e ∈ list, ∃ set, layer.undisturbed core (.ancestors e.1) = .ok set ∧
    ∀ x, x ∈ e.2 ↔ x ∈ set

theorem map_fst_listing (known : TypeName → TypeSet) (names : List TypeName) :
    (listing known names).map (·.1) = distinct names := by
  rw [listing, List.map_map]
  exact List.map_id _

theorem lists_listing (layer : Layer) (hooks : List Hook) (core : Registry)
    (names : List TypeName) :
    layer.Lists core names (listing (Registry.layered layer hooks core).answer names) := by
  have hkeys := map_fst_listing (Registry.layered layer hooks core).answer names
  refine ⟨hkeys ▸ nodup_distinct names, fun t => hkeys ▸ mem_distinct,
    hkeys ▸ pairwise_distinct names, fun e he => ?_, fun e he => ?_⟩
  all_goals obtain ⟨t, _, rfl⟩ := List.mem_map.mp he
  · exact TypeSet.ascending_toList _
  · obtain ⟨set, hset, hanswers⟩ := undisturbed_answers core.answers_answer layer (.ancestors t)
    rw [(Registry.answers_layered layer hooks core t).unique hanswers]
    exact ⟨set, hset, fun x => Std.ExtTreeSet.mem_toList⟩

/-- In two listings, a type has the same list. -/
theorem eq_of_mem_listing {known : TypeName → TypeSet} {names names' : List TypeName} {t : TypeName}
    {list list' : List TypeName} (h : (t, list) ∈ listing known names)
    (h' : (t, list') ∈ listing known names') : list = list' := by
  obtain ⟨u, _, hu⟩ := List.mem_map.mp h
  obtain ⟨u', _, hu'⟩ := List.mem_map.mp h'
  cases hu
  cases hu'
  rfl

/-- So it has in all lists that batches come to. -/
theorem eq_of_mem_results {known : TypeName → TypeSet} {batches : List (List TypeName)}
    {list list' : List (TypeName × List TypeName)} {t : TypeName} {l l' : List TypeName}
    (hresults : results = batches.map fun names => .ok (listing known names))
    (hlist : .ok list ∈ results) (hlist' : .ok list' ∈ results) (hl : (t, l) ∈ list)
    (hl' : (t, l') ∈ list') : l = l' := by
  have hlisted : ∀ list, .ok list ∈ results → ∃ names, listing known names = list := by
    intro list hlist
    rw [hresults] at hlist
    obtain ⟨names, _, hnames⟩ := List.mem_map.mp hlist
    exact ⟨names, Except.ok.inj hnames⟩
  obtain ⟨names, rfl⟩ := hlisted list hlist
  obtain ⟨names', rfl⟩ := hlisted list' hlist'
  exact eq_of_mem_listing hl hl'

/-! ## 2. Any number of batches -/

/-- **What batches come to, and what they leave behind.** -/
theorem rounds_sound (hsound : (Registry.layered layer hooks core).Sound world)
    (hrecording : (Registry.layered layer hooks core).Recording world)
    (hrounds : (Registry.layered layer hooks core).service.Rounds rounds world results world') :
    results = (rounds.map (·.2)).map (fun names =>
        .ok (listing (Registry.layered layer hooks core).answer names)) ∧
      ((Registry.layered layer hooks core).Sound world' ∧
        (Registry.layered layer hooks core).Recording world') ∧
      layer.Fills core.answer world.memo (rounds.map (·.2)).flatten world'.memo := by
  obtain ⟨underway, left, pace, hcore⟩ := core.registry_serves
  obtain ⟨_, hspans⟩ := core.answers_answer.spans_mentioned layer
  have hknown := Registry.answers_layered layer hooks core
  have hworld := (Registry.quiet_iff hooks world).mp ⟨hsound, hrecording⟩
  obtain ⟨hresults, hquiet⟩ := rounds_results (layer_serves hcore hspans hknown) hworld hrounds
  obtain ⟨_, hfills⟩ := rounds_fills hcore hspans hknown hworld hrounds
  exact ⟨hresults, (Registry.quiet_iff hooks world').mpr hquiet, hfills⟩

/-- Memos that are right and filled with the same have the same sets in them. -/
theorem Layer.Fills.entries_eq {below : TypeName → TypeSet} {old memo memo' : Memo}
    {asked : List TypeName} (h : layer.Fills below old asked memo)
    (h' : layer.Fills below old asked memo') (hmemo : memo.Sound (layer.hierarchy below))
    (hmemo' : memo'.Sound (layer.hierarchy below)) : memo'.entries = memo.entries :=
  hmemo.entries_eq hmemo' fun t => (h' t).trans (h t).symm

/-- **A batch asked one query after the other** lists the same. -/
theorem queryAll_eq (hooks : List Hook) (hsound : (Registry.layered layer hooks core).Sound world)
    (hrecording : (Registry.layered layer hooks core).Recording world) (names : List TypeName) :
    (layer.queryAll core.toCore names world).1 =
      .ok (listing (Registry.layered layer hooks core).answer names) := by
  have hpatient : world.Patient core.Patient := Registry.Recording.patient hrecording
  have hall : ∀ t ∈ names, t ∈ distinct names := fun t ht => mem_distinct.mpr ht
  obtain ⟨list, heq, hkeys, hentries⟩ := queryAllIn_eq core.answers_answer
    (hsound core.answer core.answers_answer) hpatient hall
  have hlist : list = listing (Registry.layered layer hooks core).answer names := by
    rw [listing, ← hkeys, List.map_map]
    refine (List.map_id list).symm.trans (List.map_congr_left fun e he => ?_)
    obtain ⟨set, hset, hanswers⟩ := hentries e he
    rw [hanswers.unique (Registry.answers_layered layer hooks core e.1)] at hset
    exact Prod.ext rfl hset
  rw [Layer.queryAll, heq, hlist]

/-- **A new registry is left with the memo** that it would have if all types had been asked about
one after the other. -/
theorem rounds_one_by_one
    (hrecording : (Registry.layered layer [] core).Recording (Registry.layered layer [] core).fresh)
    (hrounds : (Registry.layered layer [] core).service.Rounds rounds
      (Registry.layered layer [] core).fresh results world) :
    world.memo.entries = (layer.after core.toCore ((rounds.map (·.2)).flatten.map .ancestors)
      ⟨.empty, core.fresh, { hooks := [] }⟩).memo.entries := by
  obtain ⟨_, ⟨hsound, _⟩, hfills⟩ := rounds_sound (Registry.sound_fresh _) hrecording hrounds
  obtain ⟨reached, heard, htallied⟩ := exists_tallied layer
    ⟨core.sound_fresh, Registry.Recording.patient hrecording.2⟩ (rounds.map (·.2)).flatten
  have hmemo := (after_sound core.answers_answer ((rounds.map (·.2)).flatten.map .ancestors)
    (⟨Memo.sound_empty, core.sound_fresh⟩ : World.Sound layer core.answer core.Sound
      ⟨.empty, core.fresh, ({ hooks := [] } : Watch)⟩)).memo
  refine Memo.Sound.entries_eq hmemo (hsound core.answer core.answers_answer).memo fun t => ?_
  have hnone : ¬ Memo.empty.Has t := by simp [Memo.Has, Memo.empty, Memo.peek?]
  rw [htallied.has, htallied.reached_iff]
  exact (hfills t).trans (or_iff_right hnone)

/-- **Neither jobs nor order matter.**  Each batch that is put to a registry gets the list of its
types with their ancestors, as a new registry tells them, and as it would have got it one query
after the other; so a type has the same list in all batches.  What they come to, and what they leave
in the memo, is the same for the same batches with other numbers of jobs, whatever the workers do
when and in whatever order the outcomes are taken.  The registry is left in a state like the one
before, in which the workers of a further batch take a bounded number of steps, and until all is
answered one of them can go on. -/
theorem rounds_agree (layer : Layer) (hooks : List Hook) (core : Registry)
    {world world' : World core.State Watch}
    (hsound : (Registry.layered layer hooks core).Sound world)
    (hrecording : (Registry.layered layer hooks core).Recording world)
    (hrounds : (Registry.layered layer hooks core).service.Rounds rounds world results world') :
    let service := (Registry.layered layer hooks core).service
    List.Forall₂ (fun round result => ∃ list, result = .ok list ∧ layer.Lists core round.2 list)
      rounds results ∧
    results = rounds.map (fun round =>
      (layer.queryAll core.toCore round.2 world).1.mapError .cutShort) ∧
    (∀ list list', .ok list ∈ results → .ok list' ∈ results →
      ∀ t l l', (t, l) ∈ list → (t, l') ∈ list' → l = l') ∧
    (∀ t, world'.memo.Has t ↔ world.memo.Has t ∨ ∃ round ∈ rounds, ∃ u ∈ round.2,
      ¬ layer.AnswersAtOnce core.answer u ∧
        (layer.hierarchy core.answer world.memo.peek?).Reaches u t) ∧
    (∀ rounds' results' (world'' : World core.State Watch), rounds'.map (·.2) = rounds.map (·.2) →
      service.Rounds rounds' world results' world'' →
        results' = results ∧ world''.memo.entries = world'.memo.entries ∧
          world''.memo.size = world'.memo.size) ∧
    ((Registry.layered layer hooks core).Sound world' ∧
      (Registry.layered layer hooks core).Recording world') ∧
    ∀ jobs names, ∃ bound, ∀ n pool,
      Pool.Runs service (workers jobs names) n (.new names world') pool →
        n ≤ bound ∧ (pool.Done ∨ ∃ next, Pool.Step service (workers jobs names) pool next) := by
  intro service
  obtain ⟨hresults, hlast, hfills⟩ := rounds_sound hsound hrecording hrounds
  have hmemo : ∀ {world : World core.State Watch}, (Registry.layered layer hooks core).Sound world →
      world.memo.Sound (layer.hierarchy core.answer) :=
    fun h => (h core.answer core.answers_answer).memo
  refine ⟨?_, ?_, ?_, ?_, ?_, hlast, ?_⟩
  · rw [hresults, List.map_map, List.forall₂_map_right_iff, List.forall₂_same]
    exact fun round _ => ⟨_, rfl, lists_listing layer hooks core round.2⟩
  · rw [hresults, List.map_map]
    refine List.map_congr_left fun round _ => ?_
    rw [queryAll_eq hooks hsound hrecording round.2]
    rfl
  · exact fun list list' hlist hlist' t l l' => eq_of_mem_results hresults hlist hlist'
  · intro t
    refine (hfills t).trans (or_congr_right ?_)
    simp only [List.mem_flatten, List.mem_map]
    constructor
    · rintro ⟨u, ⟨_, ⟨round, hround, rfl⟩, hu⟩, hreached⟩
      exact ⟨round, hround, u, hu, hreached⟩
    · rintro ⟨round, hround, u, hu, hreached⟩
      exact ⟨u, ⟨_, ⟨round, hround, rfl⟩, hu⟩, hreached⟩
  · intro rounds' results' world'' hsame hrounds'
    obtain ⟨hresults', hlast', hfills'⟩ := rounds_sound hsound hrecording hrounds'
    rw [hsame] at hresults' hfills'
    have hentries := hfills.entries_eq hfills' (hmemo hlast.1) (hmemo hlast'.1)
    exact ⟨hresults'.trans hresults.symm, hentries, congrArg Std.ExtTreeMap.size hentries⟩
  · intro jobs names
    obtain ⟨underway, left, pace, hserves⟩ := (Registry.layered layer hooks core).registry_serves
    exact ⟨_, fun n pool hruns =>
      ⟨runs_le hserves hlast hruns, pool.done_or_step service (one_le_workers jobs names)⟩⟩

/-- Two batches about a cycle, over a core registry that is a layer itself: one for three workers,
and one for less than one. -/
theorem rounds_agree_cycle :
    let below : Layer := ⟨.standard, .ofEntries [("org/gradle/D", .ofNames ["org/gradle/E"])],
      .ascending⟩
    let core : Registry := .layered below [] .empty
    let layer : Layer := ⟨.standard, .ofEntries [("a", .ofNames ["b", "org/gradle/D"]),
      ("b", .ofNames ["a", "org/gradle/C"])], .ascending⟩
    let registry := Registry.layered layer [] core
    (registry.Sound registry.fresh ∧ registry.Recording registry.fresh) ∧
      ∃ results world, registry.service.Rounds [(3, ["b", "a", "b"]), (-1, ["a"])] registry.fresh
        results world ∧
        results = [
          .ok [("b", ["org/gradle/C", "org/gradle/D", "org/gradle/E"]),
            ("a", ["org/gradle/C", "org/gradle/D", "org/gradle/E"])],
          .ok [("a", ["org/gradle/C", "org/gradle/D", "org/gradle/E"])]] := by
  intro below core layer registry
  have hrecording : registry.Recording registry.fresh := ⟨⟨rfl, rfl⟩, ⟨rfl, rfl⟩, trivial⟩
  refine ⟨⟨registry.sound_fresh, hrecording⟩, ?_⟩
  obtain ⟨_, _, _, hserves⟩ := registry.registry_serves
  obtain ⟨results, world, hrounds⟩ := exists_rounds hserves ⟨registry.sound_fresh, hrecording⟩
    [(3, ["b", "a", "b"]), (-1, ["a"])]
  obtain ⟨_, hresults, _⟩ :=
    rounds_agree layer [] core registry.sound_fresh hrecording hrounds
  refine ⟨results, world, hrounds, ?_⟩
  rw [hresults]
  decide +kernel

end Ancestry.Closure
