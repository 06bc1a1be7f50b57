import Ancestry.Proofs.Registry.Accounting
import Ancestry.Proofs.Registry.History

/-!
# What queries leave behind

A layer is new, and the ancestors of some types are asked for, one after the other.  Each query
walks only through what earlier ones have left out of the memo, so the walks differ with the order
of the queries.  What they leave behind does not: the memo has the types that can be reached from
those that were asked about, but for those for which the core registry answers at once, and the
events tell of each unknown type among them once (`after_tallied`).
-/

namespace Ancestry.Closure

open Scene

/-! ## 1. Types reached around a memo -/

section
variable {layer : Layer} {known : TypeName → TypeSet} {given : TypeName → Option TypeSet}
  {t x : TypeName}

theorem Hierarchy.given_of_reaches {H : Hierarchy}
    (hclosed : ∀ a b, given a ≠ none → b ∈ H.above a → given b ≠ none) (ht : given t ≠ none)
    (hx : H.Reaches t x) : given x ≠ none := by
  induction hx with
  | refl => exact ht
  | tail _ hlead ih => exact hclosed _ _ ih hlead.2

/-- Where the given types are closed upward, nothing that is not given is reached through them. -/
theorem reaches_around_iff
    (hclosed : ∀ a b, given a ≠ none → b ∈ (layer.hierarchy known).above a → given b ≠ none)
    (hx : given x = none) :
    (layer.hierarchy known given).Reaches t x ↔ (layer.hierarchy known).Reaches t x := by
  constructor
  · intro hreach
    exact Relation.ReflTransGen.mono (fun a b hab => ⟨rfl, hab.2⟩) _ _ hreach
  · intro hreach
    induction hreach using Relation.ReflTransGen.head_induction_on with
    | refl => exact .refl
    | @head a b hab hbx ih =>
      have ha : given a = none := Classical.byContradiction fun hne =>
        Hierarchy.given_of_reaches hclosed (hclosed a b hne hab.2) hbx hx
      exact .head ⟨ha, hab.2⟩ ih

end

/-! ## 2. One query -/

theorem typesAt_map (occasion occasion' : Occasion) (types : List TypeName) :
    typesAt occasion (types.map (⟨occasion', ·⟩)) = if occasion' = occasion then types else [] := by
  induction types with
  | nil => simp
  | cons t types ih =>
    rw [List.map_cons, typesAt_cons, ih]
    split <;> rfl

/-- A walk tells of the core types that nobody knows once each: they are among those it opened. -/
theorem Account.OfWalk.unknown {layer : Layer} {known : TypeName → TypeSet} {memo : Memo}
    {before opened : List TypeName} {account : Account}
    (h : account.OfWalk layer known memo before opened) :
    (typesAt .coreUnknown account.heard).Perm (opened.filter (layer.unknown known)) := by
  have hperm : (typesAt .coreUnknown account.heard).Perm _ := h.heard.filterMap _
  refine hperm.trans (.of_eq ?_)
  change typesAt .coreUnknown (_ ++ _ ++ _ ++ _) = _
  simp only [typesAt_append, typesAt_map, reduceCtorEq, if_true, if_false, List.nil_append]

/-- A query about `t` has opened the types `opened`, by which the memo is larger afterwards. -/
structure Layer.Opens (layer : Layer) (known : TypeName → TypeSet) (memo : Memo) (t : TypeName)
    (opened : List TypeName) (memo' : Memo) (heard : List Event) : Prop where
  nodup : opened.Nodup
  opened_iff : ∀ u, u ∈ opened ↔ ¬ layer.AnswersAtOnce known t ∧
    (layer.hierarchy known memo.peek?).Reaches t u ∧ memo.peek? u = none
  has : ∀ u, memo'.Has u ↔ memo.Has u ∨ u ∈ opened
  misses : memo'.misses = memo.misses + opened.length
  stores : memo'.stores = memo.stores + opened.length
  size : memo'.size = memo.size + opened.length
  unknown : (typesAt .coreUnknown heard).Perm (opened.filter (layer.unknown known))

variable {layer : Layer} {core : Registry} {state : core.State} {memo : Memo} {t : TypeName}

/-- A query that does not walk opens nothing. -/
theorem opens_nil {memo' : Memo} {heard : List Event}
    (hnone : layer.AnswersAtOnce core.answer t ∨ memo.peek? t ≠ none)
    (hentries : memo'.entries = memo.entries) (hmisses : memo'.misses = memo.misses)
    (hstores : memo'.stores = memo.stores) (hheard : typesAt .coreUnknown heard = []) :
    layer.Opens core.answer memo t [] memo' heard := by
  refine ⟨.nil, fun u => ?_, fun u => ?_, hmisses, hstores, ?_, .of_eq hheard⟩
  · refine iff_of_false List.not_mem_nil ?_
    rintro ⟨hat, hreach, hu⟩
    have hgiven := hnone.resolve_left hat
    -- An ascent does not leave a type whose set is given.
    rcases Relation.ReflTransGen.cases_head hreach with rfl | ⟨_, hlead, _⟩
    · exact hgiven hu
    · exact hgiven hlead.1
  · simp [Memo.Has, Memo.peek?, hentries]
  · simp [Memo.size, hentries]

/-- **What one query leaves behind.** -/
theorem query_opens (hstate : core.Sound state ∧ core.Patient state) (layer : Layer) (memo : Memo)
    (t : TypeName) (log : List Note) :
    ∃ set memo' state' heard opened,
      layer.query core.toCore (.ancestors t) ⟨memo, state, { hooks := [], log := log }⟩ =
        (.ok set, ⟨memo', state', { hooks := [], log := heard.map .event ++ log }⟩) ∧
      (core.Sound state' ∧ core.Patient state') ∧
      layer.Opens core.answer memo t opened memo' heard := by
  have hcore := core.settled
  obtain ⟨names, hlen, hspans⟩ := core.answers_answer.spans layer
  obtain ⟨n, set, final, hends, hquery⟩ :=
    query_quiet hspans hlen hcore (.ancestors t) memo hstate log
  have hfinal := (hends.answers hcore (good_start _ memo hstate)).1.core
  refine ⟨set, final.memo, final.core, final.heard, ?_⟩
  by_cases hat : layer.AnswersAtOnce core.answer t
  · obtain ⟨_, hmemo, _, hheard⟩ := hends.at_once hcore hstate hat
    refine ⟨[], hquery, hfinal, ?_⟩
    rw [hmemo, hheard]
    exact opens_nil (.inl hat) rfl rfl rfl rfl
  · obtain ⟨_, _, hstate', hconsult⟩ := hends.consults hcore hstate hat
    cases hfound : memo.peek? t with
    | some found =>
      obtain ⟨_, hmemo, _, hheard⟩ := hconsult.looked_up hfound
      refine ⟨[], hquery, hfinal, ?_⟩
      rw [hmemo, hheard]
      exact opens_nil (.inr (by simp [hfound])) rfl rfl rfl rfl
    | none =>
      obtain ⟨_, hentry⟩ := hconsult.not_found hfound
      have hseeks : (Question.ancestors t).Seeks layer core.answer t := ⟨rfl, hat⟩
      obtain ⟨opened, hnodup, hopened, hwalk⟩ :=
        walk_accounts hcore hstate' hseeks hfound hentry
      exact ⟨opened, hquery, hfinal, hnodup, fun u => by rw [hopened u, and_iff_right hat],
        hwalk.has, hwalk.misses, hwalk.stores, hwalk.size, hwalk.unknown⟩

/-! ## 3. Any number of queries -/

/-- The ancestors of the types `asked` were asked for of a layer that was new.  The types `reached`
are what these queries came by, and they account for what is in the memo, for its counters, and for
the unknown types that were heard of. -/
structure World.Tallied {σ : Type} (layer : Layer) (known : TypeName → TypeSet)
    (asked reached : List TypeName) (heard : List Event) (world : World σ Watch) : Prop where
  nodup : reached.Nodup
  reached_iff : ∀ t, t ∈ reached ↔
    ∃ u ∈ asked, ¬ layer.AnswersAtOnce known u ∧ (layer.hierarchy known).Reaches u t
  has : ∀ t, world.memo.Has t ↔ t ∈ reached
  misses : world.memo.misses = reached.length
  stores : world.memo.stores = reached.length
  size : world.memo.size = reached.length
  listener : world.listener = { hooks := [], log := heard.map .event }
  unknown : (typesAt .coreUnknown heard).Perm (reached.filter (layer.unknown known))

variable {asked reached : List TypeName} {heard : List Event} {world : World core.State Watch}

theorem tallied_empty (layer : Layer) (state : core.State) :
    World.Tallied layer core.answer [] [] [] ⟨.empty, state, { hooks := [] }⟩ := by
  refine ⟨.nil, fun t => ?_, fun t => ?_, rfl, rfl, rfl, rfl, .nil⟩
  · simp
  · simp [Memo.Has, Memo.empty, Memo.peek?]

/-- The types that were reached are closed upward. -/
theorem World.Tallied.closed {σ : Type} {known : TypeName → TypeSet} {world : World σ Watch}
    (h : world.Tallied layer known asked reached heard) {a b : TypeName} (ha : a ∈ reached)
    (hb : b ∈ (layer.hierarchy known).above a) : b ∈ reached := by
  obtain ⟨u, hu, hat, hreach⟩ := (h.reached_iff a).mp ha
  exact (h.reached_iff b).mpr ⟨u, hu, hat, hreach.tail ⟨rfl, hb⟩⟩

/-- The types in the memo are those that have been reached. -/
theorem World.Tallied.peek?_eq_none {σ : Type} {known : TypeName → TypeSet} {world : World σ Watch}
    (h : world.Tallied layer known asked reached heard) (u : TypeName) :
    world.memo.peek? u = none ↔ u ∉ reached := by
  rw [← h.has, Memo.Has, ← Option.isSome_iff_exists, Option.not_isSome_iff_eq_none]

/-- **One more query.** -/
theorem World.Tallied.query (h : world.Tallied layer core.answer asked reached heard)
    (hstate : core.Sound world.core ∧ core.Patient world.core) (t : TypeName) :
    ∃ reached' heard', (layer.query core.toCore (.ancestors t) world).2.Tallied layer core.answer
        (asked ++ [t]) reached' heard' ∧
      (core.Sound (layer.query core.toCore (.ancestors t) world).2.core ∧
        core.Patient (layer.query core.toCore (.ancestors t) world).2.core) := by
  obtain ⟨set, memo', state', new, opened, hquery, hstate', hopens⟩ :=
    query_opens hstate layer world.memo t (heard.map .event)
  have hworld : world = ⟨world.memo, world.core, { hooks := [], log := heard.map .event }⟩ := by
    rw [← h.listener]
  rw [← hworld] at hquery
  rw [hquery]
  have hopened : ∀ u, u ∈ opened ↔ ¬ layer.AnswersAtOnce core.answer t ∧
      (layer.hierarchy core.answer).Reaches t u ∧ u ∉ reached := by
    intro u
    rw [hopens.opened_iff, h.peek?_eq_none]
    refine and_congr_right fun _ => and_congr_left fun hu => ?_
    refine reaches_around_iff (fun a b ha hb => ?_) ((h.peek?_eq_none u).mpr hu)
    rw [Ne, h.peek?_eq_none, not_not] at ha ⊢
    exact h.closed ha hb
  refine ⟨opened ++ reached, new ++ heard, ⟨?_, fun u => ?_, fun u => ?_, ?_, ?_, ?_, ?_, ?_⟩,
    hstate'⟩
  · refine List.nodup_append.mpr ⟨hopens.nodup, h.nodup, fun u hu v hv he => ?_⟩
    exact ((hopened u).mp hu).2.2 (he ▸ hv)
  · have hmem : (∃ v ∈ asked ++ [t], ¬ layer.AnswersAtOnce core.answer v ∧
        (layer.hierarchy core.answer).Reaches v u) ↔ u ∈ reached ∨
          (¬ layer.AnswersAtOnce core.answer t ∧ (layer.hierarchy core.answer).Reaches t u) := by
      simp only [List.mem_append, List.mem_singleton, or_and_right, exists_or, exists_eq_left,
        h.reached_iff]
    rw [hmem, List.mem_append, hopened]
    tauto
  · rw [hopens.has, h.has, List.mem_append, or_comm]
  · rw [hopens.misses, h.misses, List.length_append, Nat.add_comm]
  · rw [hopens.stores, h.stores, List.length_append, Nat.add_comm]
  · rw [hopens.size, h.size, List.length_append, Nat.add_comm]
  · rw [List.map_append]
  · rw [typesAt_append, List.filter_append]
    exact hopens.unknown.append h.unknown

/-- **Any number of queries.** -/
theorem World.Tallied.after (queries : List TypeName) :
    ∀ {asked reached heard} {world : World core.State Watch},
      world.Tallied layer core.answer asked reached heard →
      core.Sound world.core ∧ core.Patient world.core →
        ∃ reached' heard', (layer.after core.toCore (queries.map .ancestors) world).Tallied layer
          core.answer (asked ++ queries) reached' heard' := by
  induction queries with
  | nil =>
    intro asked reached heard world h _
    exact ⟨reached, heard, by rwa [List.append_nil]⟩
  | cons t queries ih =>
    intro asked reached heard world h hstate
    obtain ⟨reached', heard', h', hstate'⟩ := h.query hstate t
    rw [← List.singleton_append, ← List.append_assoc]
    exact ih h' hstate'

/-- What the queries leave behind that are put to a new layer. -/
theorem exists_tallied (layer : Layer) {state : core.State}
    (hstate : core.Sound state ∧ core.Patient state) (asked : List TypeName) :
    ∃ reached heard, World.Tallied layer core.answer asked reached heard
      (layer.after core.toCore (asked.map .ancestors) ⟨.empty, state, { hooks := [] }⟩) := by
  have h := (tallied_empty layer state).after asked hstate
  rwa [List.nil_append] at h

/-! ## 4. Registries that differ in their order only -/

/-- The registries have the same namespace and index on every layer.  The order in which supertypes
are taken may differ, and so may the hooks. -/
def Registry.Alike : Registry → Registry → Prop
  | .table ancestors, .table ancestors' => ancestors' = ancestors
  | .layered layer _ core, .layered layer' _ core' =>
    layer'.space = layer.space ∧ layer'.index = layer.index ∧ core.Alike core'
  | _, _ => False

/-- Layers that are alike differ in nothing but the arrangement. -/
theorem eq_rearranged {layer' : Layer} (hspace : layer'.space = layer.space)
    (hindex : layer'.index = layer.index) : layer' = layer.rearranged layer'.arrangement := by
  obtain ⟨space', index', arrangement'⟩ := layer'
  cases hspace
  cases hindex
  rfl

/-- Registries that are alike, at every height, give the same answers. -/
theorem Registry.Answers.alike : ∀ {registry registry' : Registry} {known : TypeName → TypeSet},
    registry.Alike registry' → registry.Answers known → registry'.Answers known
  | .table _, .table _, _, h, hknown => h ▸ hknown
  | .layered layer _ core, .layered layer' hooks' core', known, h, ⟨below, hbelow, hknown⟩ => by
    obtain ⟨hspace, hindex, hcore⟩ := h
    rw [eq_rearranged hspace hindex]
    exact ⟨below, hbelow.alike hcore, hknown⟩

/-- Registries that differ in their order only have the same answers. -/
theorem Registry.Alike.answer {core' : Registry} (h : core.Alike core') :
    core'.answer = core.answer :=
  core'.answers_answer.unique (core.answers_answer.alike h)

/-- Queries about the same types come by the same types. -/
theorem World.Tallied.perm {σ σ' : Type} {known : TypeName → TypeSet} {arrangement : Arrangement}
    {asked' reached' : List TypeName} {heard' : List Event} {world : World σ Watch}
    {world' : World σ' Watch} (h : world.Tallied layer known asked reached heard)
    (h' : world'.Tallied (layer.rearranged arrangement) known asked' reached' heard')
    (hasked : ∀ t, t ∈ asked' ↔ t ∈ asked) : reached'.Perm reached := by
  refine (List.perm_ext_iff_of_nodup h'.nodup h.nodup).mpr fun t => ?_
  rw [h'.reached_iff, h.reached_iff]
  exact exists_congr fun u => and_congr_left fun _ => hasked u

/-- **What queries leave behind depends on the set of types that they ask about.**  The memo has the
types that can be reached from those for which the core registry does not answer at once, each with
its set; the counters say how many they are; and the unknown types among them were told of once
each.  Other queries about the same types, in any order and any number, put to a registry that takes
its supertypes in another order, leave the same behind. -/
theorem after_tallied (layer : Layer) (core : Registry) {state : core.State}
    (hsound : core.Sound state) (hpatient : core.Patient state) (asked : List TypeName) :
    let H := layer.hierarchy core.answer
    let world := layer.after core.toCore (asked.map .ancestors) ⟨.empty, state, { hooks := [] }⟩
    ∃ reached heard, world.Tallied layer core.answer asked reached heard ∧
      (∀ t set, world.memo.peek? t = some set →
        ∀ x, x ∈ set ↔ layer.space.contains x = true ∧ H.Reaches t x) ∧
      ∀ (layer' : Layer) (core' : Registry) (state' : core'.State) (asked' : List TypeName),
        (Registry.layered layer [] core).Alike (.layered layer' [] core') →
        core'.Sound state' → core'.Patient state' → (∀ t, t ∈ asked' ↔ t ∈ asked) →
        let world' :=
          layer'.after core'.toCore (asked'.map .ancestors) ⟨.empty, state', { hooks := [] }⟩
        world'.memo.entries = world.memo.entries ∧ world'.memo.size = world.memo.size ∧
          world'.memo.misses = world.memo.misses ∧ world'.memo.stores = world.memo.stores ∧
          ∃ heard', world'.listener.log = heard'.map .event ∧
            (typesAt .coreUnknown heard').Perm (typesAt .coreUnknown heard) := by
  intro H world
  obtain ⟨reached, heard, htallied⟩ :
      ∃ reached heard, world.Tallied layer core.answer asked reached heard :=
    exists_tallied layer ⟨hsound, hpatient⟩ asked
  have hmemo : world.memo.Sound H :=
    (after_sound core.answers_answer (asked.map .ancestors) ⟨Memo.sound_empty, hsound⟩).memo
  refine ⟨reached, heard, htallied, fun t set hset x => ?_, ?_⟩
  · exact (hmemo t set hset x).trans (Hierarchy.inherits_iff fun _ => rfl)
  intro layer' core' state' asked' ⟨hspace, hindex, hcore⟩ hsound' hpatient' hasked world'
  obtain ⟨reached', heard', htallied'⟩ :
      ∃ reached' heard', world'.Tallied layer' core'.answer asked' reached' heard' :=
    exists_tallied layer' ⟨hsound', hpatient'⟩ asked'
  have hmemo' : world'.memo.Sound (layer'.hierarchy core'.answer) :=
    (after_sound core'.answers_answer (asked'.map .ancestors) ⟨Memo.sound_empty, hsound'⟩).memo
  rw [hcore.answer, eq_rearranged hspace hindex] at htallied' hmemo'
  have hperm : reached'.Perm reached := htallied.perm htallied' hasked
  refine ⟨Std.ExtTreeMap.ext_getElem? fun t => ?_, ?_, ?_, ?_, heard', ?_, ?_⟩
  · refine hmemo.peek?_eq hmemo' ?_
    rw [htallied'.has, htallied.has, hperm.mem_iff]
  · rw [htallied'.size, htallied.size, hperm.length_eq]
  · rw [htallied'.misses, htallied.misses, hperm.length_eq]
  · rw [htallied'.stores, htallied.stores, hperm.length_eq]
  · rw [htallied'.listener]
  · exact (htallied'.unknown.trans (hperm.filter _)).trans htallied.unknown.symm

/-- A cycle over a core registry that is a layer itself, entered from its one end and from its
other. -/
theorem after_tallied_cycle :
    let below : Layer := ⟨.standard, .ofEntries [("org/gradle/D", .ofNames ["org/gradle/E"])],
      .ascending⟩
    let core : Registry := .layered below [] .empty
    let layer : Layer := ⟨.standard, .ofEntries [("a", .ofNames ["b"]),
      ("b", .ofNames ["a", "org/gradle/C"])], .ascending⟩
    let after := fun asked : List TypeName => layer.after core.toCore (asked.map .ancestors)
      (⟨.empty, core.fresh, { hooks := [] }⟩ : World core.State Watch)
    (core.Sound core.fresh ∧ core.Patient core.fresh) ∧
      (after ["a", "b", "org/gradle/D"]).memo.Has "org/gradle/C" ∧
      (after ["org/gradle/D", "b", "a", "b"]).memo.entries =
        (after ["a", "b", "org/gradle/D"]).memo.entries := by
  intro below core layer after
  have hpatient : core.Patient core.fresh := Registry.patient_unhooked core
  refine ⟨⟨core.sound_fresh, hpatient⟩, ?_⟩
  obtain ⟨reached, heard, htallied, _, hother⟩ :=
    after_tallied layer core core.sound_fresh hpatient ["a", "b", "org/gradle/D"]
  refine ⟨(htallied.has _).mpr ((htallied.reached_iff _).mpr ⟨"b", by simp, ?_, .single ?_⟩), ?_⟩
  · exact fun h => absurd h.1 (by decide +kernel)
  · exact ⟨rfl, by decide +kernel⟩
  · exact (hother layer core core.fresh ["org/gradle/D", "b", "a", "b"] ⟨rfl, rfl, rfl, rfl, rfl⟩
      core.sound_fresh hpatient (by simp; tauto)).1

end Ancestry.Closure
