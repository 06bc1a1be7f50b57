import Ancestry.Proofs.Registry.History
import Ancestry.Proofs.Registry.Namespace

/-!
# Over a flattened core registry

A core registry is meant to be an index of the core system with all ancestors of each of its types:
what is above a core type is in its set already.  A layer makes use of that in one place only, when
it passes the core registry's answer for a core type on without a walk.  A walk that comes to such a
type takes the members of the set for its direct supertypes and goes on from each of them, around
the cycles that a set makes which has the type itself.

Where the core registry is flattened indeed, and the index says nothing about the types in its
answers, the two agree (`Flattened.denotes`): an ascent that is in a set cannot get out of it
(`Flattened.stays`), so all it does is to climb the index and take over the sets of the core types
that it comes by (`Flattened.reaches_iff`).
-/

namespace Ancestry.Closure

/-- The core registry that answers `known` is flattened, as the layer needs it: the set of a core
type has core types only, the type itself unless it is empty, and with each type the set of that
type; and the index declares none of them. -/
structure Layer.Flattened (layer : Layer) (known : TypeName → TypeSet) : Prop where
  within : ∀ s, layer.space.contains s = true → layer.space.Within (known s)
  self : ∀ s, layer.space.contains s = true → known s ≠ ∅ → s ∈ known s
  closed : ∀ s, layer.space.contains s = true → ∀ x ∈ known s, ∀ y ∈ known x, y ∈ known s
  undeclared : ∀ s, layer.space.contains s = true → ∀ x ∈ known s, layer.index.get? x = none

/-- Any number of steps up, each to a supertype that the index declares. -/
def Layer.Climbs (layer : Layer) : TypeName → TypeName → Prop :=
  Relation.ReflTransGen fun a b => b ∈ layer.index.getD a

variable {layer : Layer} {known : TypeName → TypeSet} {s t x y : TypeName}

/-! ## 1. Ascents over flattened sets -/

theorem Layer.Climbs.reaches (h : layer.Climbs t x) : (layer.hierarchy known).Reaches t x :=
  Relation.ReflTransGen.mono (fun _ _ => leads_of_declared) _ _ h

namespace Layer.Flattened

/-- A core type with a set is not in the index. -/
theorem index_eq_none (h : layer.Flattened known) (hs : layer.space.contains s = true)
    (hne : known s ≠ ∅) : layer.index.get? s = none :=
  h.undeclared s hs s (h.self s hs hne)

/-- From a core type one step leads to each member of its set. -/
theorem leads (h : layer.Flattened known) (hs : layer.space.contains s = true) (hx : x ∈ known s) :
    (layer.hierarchy known).Leads s x := by
  exact leads_of_known hs (h.index_eq_none hs (TypeSet.ne_empty_iff.mpr ⟨x, hx⟩)) hx

/-- **No ascent leaves the set of a core type.** -/
theorem stays (h : layer.Flattened known) (hs : layer.space.contains s = true) (hx : x ∈ known s)
    (hxy : (layer.hierarchy known).Reaches x y) : y ∈ known s := by
  induction hxy with
  | refl => exact hx
  | @tail y z _ hyz ih =>
    rcases leads_cases hyz with hz | ⟨_, _, hz⟩
    · rw [TypeTable.getD, h.undeclared s hs y ih] at hz
      exact absurd hz (by simp)
    · exact h.closed s hs y ih z hz

/-- **An ascent climbs the index, and takes over the set of a core type.**  To go on from the
members of that set leads nowhere else. -/
theorem reaches_iff (h : layer.Flattened known) :
    (layer.hierarchy known).Reaches t x ↔
      layer.Climbs t x ∨ ∃ s, layer.Climbs t s ∧ layer.space.contains s = true ∧ x ∈ known s := by
  constructor
  · intro hreach
    induction hreach with
    | refl => exact .inl .refl
    | @tail x y _ hxy ih =>
      rcases ih with hclimbs | ⟨s, hclimbs, hs, hx⟩
      · rcases leads_cases hxy with hy | ⟨_, hcore, hy⟩
        · exact .inl (hclimbs.tail hy)
        · exact .inr ⟨x, hclimbs, hcore, hy⟩
      · exact .inr ⟨s, hclimbs, hs, h.stays hs hx (.single hxy)⟩
  · rintro (hclimbs | ⟨s, hclimbs, hs, hx⟩)
    · exact hclimbs.reaches
    · exact hclimbs.reaches.tail (h.leads hs hx)

/-- What a type inherits, without any ascent through the sets of the core registry. -/
theorem inherits_iff (h : layer.Flattened known) :
    (layer.hierarchy known).Inherits t x ↔
      ∃ s, layer.Climbs t s ∧ layer.space.contains s = true ∧ (x = s ∨ x ∈ known s) := by
  rw [Hierarchy.inherits_iff fun _ => rfl, h.reaches_iff]
  constructor
  · rintro ⟨hcore, hclimbs | ⟨s, hclimbs, hs, hx⟩⟩
    · exact ⟨x, hclimbs, hcore, .inl rfl⟩
    · exact ⟨s, hclimbs, hs, .inr hx⟩
  · rintro ⟨s, hclimbs, hs, rfl | hx⟩
    · exact ⟨hs, .inl hclimbs⟩
    · exact ⟨h.within s hs x hx, .inr ⟨s, hclimbs, hs, hx⟩⟩

/-- **The set that the core registry has for a type is the one that a walk finds.** -/
theorem denotes (h : layer.Flattened known) (ht : layer.AnswersAtOnce known t) :
    (layer.hierarchy known).Denotes (known t) t := by
  obtain ⟨hcore, hne⟩ := ht
  intro x
  rw [Hierarchy.inherits_iff fun _ => rfl]
  constructor
  · exact fun hx => ⟨h.within t hcore x hx, .single (h.leads hcore hx)⟩
  · exact fun hx => h.stays hcore (h.self t hcore hne) hx.2

/-- Whether the ancestors of a type are asked for or its closure makes no difference. -/
theorem answers_closure {set : TypeSet} (h : layer.Flattened known)
    (hset : (Question.ancestors t).Answers layer known (fun _ => none) set) :
    (Question.closure t).Answers layer known (fun _ => none) set := by
  by_cases hat : layer.AnswersAtOnce known t
  · rw [hset.1 hat]
    exact h.denotes hat
  · exact hset.2 hat

end Layer.Flattened

/-- Whether a table is flattened can be seen from its entries one by one. -/
theorem flattened_table {ancestors : TypeTable}
    (h : ∀ e ∈ ancestors.entries.toList, layer.space.contains e.1 = true →
      (e.2 = ∅ ∨ e.1 ∈ e.2) ∧ ∀ x ∈ e.2.toList, layer.space.contains x = true ∧
        layer.index.get? x = none ∧ ∀ y ∈ (ancestors.getD x).toList, y ∈ e.2) :
    layer.Flattened (Registry.table ancestors).answer := by
  have hentry : ∀ s x, x ∈ ancestors.getD s →
      (s, ancestors.getD s) ∈ ancestors.entries.toList := by
    intro s x hx
    refine Std.ExtTreeMap.mem_toList_iff_getElem?_eq_some.mpr ?_
    unfold TypeTable.getD TypeTable.get? at hx ⊢
    cases hs : ancestors.entries[s]? with
    | some set => rfl
    | none =>
      rw [hs] at hx
      exact absurd hx (by simp)
  have hmember := fun s (hs : layer.space.contains s = true) x (hx : x ∈ ancestors.getD s) =>
    (h _ (hentry s x hx) hs).2 x (Std.ExtTreeSet.mem_toList.mpr hx)
  constructor
  · exact fun s hs x hx => (hmember s hs x hx).1
  · intro s hs hne
    obtain ⟨x, hx⟩ := TypeSet.ne_empty_iff.mp hne
    exact ((h _ (hentry s x hx) hs).1).resolve_left hne
  · exact fun s hs x hx y hy => (hmember s hs x hx).2.2 y (Std.ExtTreeSet.mem_toList.mpr hy)
  · exact fun s hs x hx => (hmember s hs x hx).2.1

/-! ## 2. Both ways to an answer -/

/-- **Over a flattened core registry there is one answer**, whether it is the core registry's own, a
set from the memo or what a walk collects: the core types that the index leads up to, each with the
set that the core registry has for it. -/
theorem query_flattened (layer : Layer) (hooks : List Hook) (core : Registry)
    (hpatient :
      (Registry.layered layer hooks core).Patient (Registry.layered layer hooks core).fresh)
    (hflat : layer.Flattened core.answer) (history : List Question) (t : TypeName) :
    let world := layer.after core.toCore history (Registry.layered layer hooks core).fresh
    ∃ set, (layer.query core.toCore (.ancestors t) world).1 = .ok set ∧
      (layer.query core.toCore (.closure t) world).1 = .ok set ∧
      ∀ x, x ∈ set ↔ ∃ s, layer.Climbs t s ∧ layer.space.contains s = true ∧
        (x = s ∨ x ∈ core.answer s) := by
  intro world
  have hbelow := core.answers_answer
  have hfresh := (Registry.layered layer hooks core).sound_fresh core.answer hbelow
  have hsound : world.Sound layer core.answer core.Sound := after_sound hbelow history hfresh
  have hworld : world.Patient core.Patient := after_patient hbelow history hfresh hpatient
  obtain ⟨⟨set, hset, hanswers⟩, _⟩ := query_answered hbelow hsound hworld (.ancestors t)
  obtain ⟨⟨set', hset', hanswers'⟩, _⟩ := query_answered hbelow hsound hworld (.closure t)
  have hclosure := hflat.answers_closure hanswers
  refine ⟨set, hset, ?_, fun x => (hclosure x).trans hflat.inherits_iff⟩
  rw [hset', hanswers'.unique hclosure]

/-- A cycle of the index with two ways into a cycle of the core registry, one of them through a core
type that only the index knows; the second question is for a core type. -/
theorem query_flattened_cycle :
    let layer : Layer := ⟨.standard, .ofEntries [("a", .ofNames ["b", "org/gradle/C"]),
      ("b", .ofNames ["a", "org/gradle/New"]), ("org/gradle/New", .ofNames ["org/gradle/D"])],
      .ascending⟩
    let core : Registry := .table (.ofEntries
      [("org/gradle/C", .ofNames ["org/gradle/C", "org/gradle/D"]),
        ("org/gradle/D", .ofNames ["org/gradle/C", "org/gradle/D"])])
    let world := layer.after core.toCore [.closure "org/gradle/C"]
      (Registry.layered layer [] core).fresh
    layer.Flattened core.answer ∧
      ∃ set, (layer.query core.toCore (.ancestors "a") world).1 = .ok set ∧
        "org/gradle/New" ∈ set ∧ "org/gradle/D" ∈ set ∧ "a" ∉ set := by
  intro layer core world
  have hflat : layer.Flattened core.answer := flattened_table (by decide +kernel)
  have hpatient :
      (Registry.layered layer [] core).Patient (Registry.layered layer [] core).fresh :=
    ⟨⟨rfl, fun _ h => absurd h List.not_mem_nil⟩, trivial⟩
  obtain ⟨set, hset, _, hmem⟩ :=
    query_flattened layer [] core hpatient hflat [.closure "org/gradle/C"] "a"
  have hab : layer.Climbs "a" "b" := .single (by decide +kernel)
  have hnew : layer.Climbs "a" "org/gradle/New" := hab.tail (by decide +kernel)
  have hC : layer.Climbs "a" "org/gradle/C" := .single (by decide +kernel)
  refine ⟨hflat, set, hset, (hmem _).mpr ⟨_, hnew, by decide +kernel, .inl rfl⟩,
    (hmem _).mpr ⟨_, hC, by decide +kernel, .inr (by decide +kernel)⟩, fun ha => ?_⟩
  obtain ⟨s, _, hs, rfl | ha⟩ := (hmem "a").mp ha
  · exact absurd hs (by decide +kernel)
  · exact absurd (hflat.within s hs "a" ha) (by decide +kernel)

end Ancestry.Closure
