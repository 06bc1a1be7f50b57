import Ancestry.Proofs.Registry.History

/-!
# A layer with a larger index

When more is scanned, types get more direct supertypes and types become known that were not.  Every
step up that a layer could take, it can take over the larger index as well (`Extends.leads`), so no
ancestor is lost, whatever cycles the added supertypes close and however differently the walks go
(`query_extended`).

This depends on which types become known.  A type that is not a core type had no supertypes before
its entry; a core type had those that the core registry answers, and its entry takes their place
(`denotes_overridden`).
-/

namespace Ancestry.Closure

/-- The second index says no less than the first one: each entry of the first is part of the entry
of the second for the same type, and what only the second one declares are no core types. -/
structure Extends (space : CoreNamespace) (index index' : TypeTable) : Prop where
  subset : ∀ t set, index.get? t = some set →
    ∃ set', index'.get? t = some set' ∧ ∀ x ∈ set, x ∈ set'
  added : ∀ t, index.get? t = none → index'.get? t ≠ none → space.contains t = false

variable {layer layer' : Layer} {known : TypeName → TypeSet} {t x y : TypeName}

/-! ## 1. Ascents over a larger index -/

/-- What the first index declares, the second one declares. -/
theorem Extends.declared {space : CoreNamespace} {index index' : TypeTable}
    (h : Extends space index index') (hy : y ∈ index.getD x) : y ∈ index'.getD x := by
  unfold TypeTable.getD at hy ⊢
  cases hset : index.get? x with
  | none =>
    rw [hset] at hy
    exact absurd hy (by simp)
  | some set =>
    rw [hset] at hy
    obtain ⟨set', hset', hsub⟩ := h.subset x set hset
    rw [hset']
    exact hsub y hy

/-- **Every step up stays a step up.** -/
theorem Extends.leads (h : Extends layer.space layer.index layer'.index)
    (hspace : layer'.space = layer.space) (hxy : (layer.hierarchy known).Leads x y) :
    (layer'.hierarchy known).Leads x y := by
  rcases leads_cases hxy with hy | ⟨hnone, hcore, hy⟩
  · exact leads_of_declared (h.declared hy)
  · -- The core registry is asked in the same cases: a core type without an entry gets none.
    have hnone' : layer'.index.get? x = none := by
      refine Classical.byContradiction fun hne => ?_
      exact absurd hcore (by simp [h.added x hnone hne])
    exact leads_of_known (hspace ▸ hcore) hnone' hy

theorem Extends.inherits (h : Extends layer.space layer.index layer'.index)
    (hspace : layer'.space = layer.space) (hx : (layer.hierarchy known).Inherits t x) :
    (layer'.hierarchy known).Inherits t x := by
  rw [Hierarchy.inherits_iff fun _ => rfl] at hx ⊢
  refine ⟨?_, Relation.ReflTransGen.mono (fun _ _ => h.leads hspace) _ _ hx.2⟩
  exact (congrArg (·.contains x) hspace).trans hx.1

/-- **Over a larger index a question for ancestors has no smaller answer.** -/
theorem Extends.answers {set set' : TypeSet} (h : Extends layer.space layer.index layer'.index)
    (hspace : layer'.space = layer.space)
    (hset : (Question.ancestors t).Answers layer known (fun _ => none) set)
    (hset' : (Question.ancestors t).Answers layer' known (fun _ => none) set') :
    ∀ x ∈ set, x ∈ set' := by
  have hiff : layer'.AnswersAtOnce known t ↔ layer.AnswersAtOnce known t := by
    rw [Layer.AnswersAtOnce, hspace]
    rfl
  intro x hx
  by_cases hat : layer.AnswersAtOnce known t
  · rw [hset'.1 (hiff.mpr hat), ← hset.1 hat]
    exact hx
  · have hinherits := (hset.2 hat x).mp hx
    exact (hset'.2 (mt hiff.mp hat) x).mpr (h.inherits hspace hinherits)

/-- Whether an index says no less than another can be seen from their entries one by one. -/
theorem extends_of_entries {space : CoreNamespace} {index index' : TypeTable}
    (hsubset : ∀ e ∈ index.entries.toList, (index'.get? e.1).isSome ∧
      ∀ x ∈ e.2.toList, x ∈ index'.getD e.1)
    (hadded : ∀ e ∈ index'.entries.toList,
      (index.get? e.1).isSome ∨ space.contains e.1 = false) : Extends space index index' := by
  constructor
  · intro t set hset
    obtain ⟨hsome, hsub⟩ :=
      hsubset (t, set) (Std.ExtTreeMap.mem_toList_iff_getElem?_eq_some.mpr hset)
    obtain ⟨set', hset'⟩ := Option.isSome_iff_exists.mp hsome
    refine ⟨set', hset', fun x hx => ?_⟩
    simpa only [TypeTable.getD, hset', Option.getD_some] using
      hsub x (Std.ExtTreeSet.mem_toList.mpr hx)
  · intro t hnone hne
    obtain ⟨set', hset'⟩ := Option.ne_none_iff_exists'.mp hne
    refine (hadded (t, set') ?_).resolve_left (by simp [hnone])
    exact Std.ExtTreeMap.mem_toList_iff_getElem?_eq_some.mpr hset'

/-! ## 2. Two registries over one core registry -/

/-- **To scan more never loses an ancestor.**  Two registries over the same core registry, of which
the second one has the larger index, were asked whatever they were asked, and some of these queries
may have been cut short.  Where both answer for the ancestors of a type, the second one answers no
less than the first one; and a registry does answer if its hooks cut nothing short. -/
theorem query_extended (layer layer' : Layer) (hspace : layer'.space = layer.space)
    (hextends : Extends layer.space layer.index layer'.index) (hooks hooks' : List Hook)
    (core : Registry) (history history' : List Question) (t : TypeName) :
    let fresh := (Registry.layered layer hooks core).fresh
    let fresh' := (Registry.layered layer' hooks' core).fresh
    let answer := (layer.query core.toCore (.ancestors t) (layer.after core.toCore history fresh)).1
    let answer' :=
      (layer'.query core.toCore (.ancestors t) (layer'.after core.toCore history' fresh')).1
    (∀ set set', answer = .ok set → answer' = .ok set' → ∀ x ∈ set, x ∈ set') ∧
      ((Registry.layered layer hooks core).Patient fresh → ∃ set, answer = .ok set) ∧
      ((Registry.layered layer' hooks' core).Patient fresh' → ∃ set', answer' = .ok set') := by
  intro fresh fresh' answer answer'
  have hbelow := core.answers_answer
  have hsound : ∀ (l : Layer) (hs : List Hook) (past : List Question),
      (l.after core.toCore past (Registry.layered l hs core).fresh).Sound l core.answer
        core.Sound :=
    fun l hs past =>
      after_sound hbelow past ((Registry.layered l hs core).sound_fresh core.answer hbelow)
  have hanswered : ∀ (l : Layer) (hs : List Hook) (past : List Question),
      (Registry.layered l hs core).Patient (Registry.layered l hs core).fresh →
      ∃ set, (l.query core.toCore (.ancestors t)
          (l.after core.toCore past (Registry.layered l hs core).fresh)).1 = .ok set := by
    intro l hs past hpatient
    have hfresh := (Registry.layered l hs core).sound_fresh core.answer hbelow
    have hlater := after_patient hbelow past hfresh hpatient
    obtain ⟨⟨set, hset, _⟩, _⟩ := query_answered hbelow (hsound l hs past) hlater (.ancestors t)
    exact ⟨set, hset⟩
  refine ⟨fun set set' hset hset' => ?_, hanswered layer hooks history,
    hanswered layer' hooks' history'⟩
  have hright := (query_right hbelow (hsound layer hooks history) (.ancestors t)).2 set hset
  have hright' := (query_right hbelow (hsound layer' hooks' history') (.ancestors t)).2 set' hset'
  exact hextends.answers hspace hright hright'

/-- The added supertype closes a cycle, within which the second registry was asked before, in a
query that was cut short between two writes. -/
theorem query_extended_cycle :
    let layer : Layer := ⟨.standard, .ofEntries [("a", .ofNames ["b"]),
      ("b", .ofNames ["org/gradle/C"])], .ascending⟩
    let layer' : Layer := ⟨.standard, .ofEntries [("a", .ofNames ["b"]),
      ("b", .ofNames ["c", "org/gradle/C"]), ("c", .ofNames ["a", "org/gradle/E"])], .ascending⟩
    let core : Registry := .table (.ofEntries [("org/gradle/C", .ofNames ["org/gradle/D"])])
    let hooks' : List Hook := [⟨⟨.cacheStore, "a"⟩, .cutShort⟩]
    let world' :=
      layer'.after core.toCore [.closure "c"] (Registry.layered layer' hooks' core).fresh
    Extends layer.space layer.index layer'.index ∧
      ∃ set', (layer'.query core.toCore (.ancestors "a") world').1 = .ok set' ∧
        "org/gradle/D" ∈ set' := by
  intro layer layer' core hooks' world'
  have hextends : Extends layer.space layer.index layer'.index :=
    extends_of_entries (by decide +kernel) (by decide +kernel)
  have hpatient : (Registry.layered layer [] core).Patient (Registry.layered layer [] core).fresh :=
    ⟨⟨rfl, fun _ h => absurd h List.not_mem_nil⟩, trivial⟩
  obtain ⟨hsub, hanswered, _⟩ :=
    query_extended layer layer' rfl hextends [] hooks' core [] [.closure "c"] "a"
  obtain ⟨set, hset⟩ := hanswered hpatient
  have hmem : (layer.query core.toCore (.ancestors "a")
      (layer.after core.toCore [] (Registry.layered layer [] core).fresh)).1.toOption.any
        ("org/gradle/D" ∈ ·) = true := by
    decide +kernel
  rw [hset] at hmem
  cases hset' : (layer'.query core.toCore (.ancestors "a") world').1 with
  | error e =>
    have hok : (layer'.query core.toCore (.ancestors "a") world').1.toOption.isSome = true := by
      decide +kernel
    rw [hset'] at hok
    cases hok
  | ok set' => exact ⟨hextends, set', rfl, hsub set set' hset hset' _ (of_decide_eq_true hmem)⟩

/-! ## 3. Core types that get an entry -/

/-- An empty entry takes the place of all that the core registry knows of a core type. -/
theorem denotes_overridden (hcore : layer.space.contains t = true)
    (hdeclared : layer.index.get? t = some ∅) :
    (layer.hierarchy known).Denotes (.ofNames [t]) t := by
  intro x
  rw [TypeSet.mem_ofNames, List.mem_singleton, Hierarchy.inherits_iff fun _ => rfl]
  constructor
  · rintro rfl
    exact ⟨hcore, .refl⟩
  · rintro ⟨_, hreach⟩
    rcases Relation.ReflTransGen.cases_head hreach with rfl | ⟨y, hlead, _⟩
    · rfl
    · have hy := hlead.2
      simp [Layer.hierarchy, hdeclared] at hy

/-- So an ancestor is lost if such an entry is added. -/
example :
    let core : Registry := .table (.ofEntries [("org/gradle/C", .ofNames ["org/gradle/D"])])
    let before : Layer := ⟨.standard, .ofEntries [("a", .ofNames ["org/gradle/C"])], .ascending⟩
    let after : Layer := ⟨.standard, .ofEntries [("a", .ofNames ["org/gradle/C"]),
      ("org/gradle/C", ∅)], .ascending⟩
    (before.undisturbed core (.ancestors "a")).toOption.map (·.toList) =
        some ["org/gradle/C", "org/gradle/D"] ∧
      (after.undisturbed core (.ancestors "a")).toOption.map (·.toList) =
        some ["org/gradle/C"] := by
  decide +kernel

end Ancestry.Closure
