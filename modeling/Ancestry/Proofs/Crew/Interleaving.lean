import Mathlib.Data.Set.Finite.Lattice
import Ancestry.Proofs.Crew.Length
import Ancestry.Proofs.Registry.Sound

/-!
# Any order of the workers will do

Whatever the order in which the workers of a crew access their memo, no harm is done by the race:
two workers that find nothing under the same type walk to it twice and store the same set.  The
sets in the memo are right at all times and stay in it, each query is answered as if its worker had
been alone, and in the end the memo has the types that can be reached from those which the core
registry did not answer for, and no others (`crew_interleaving`).
-/

namespace Ancestry.Closure

variable {layer : Layer} {known : TypeName → TypeSet} {plans : List (List TypeName)} {crew : Crew}
  {t : TypeName} {set : TypeSet}

/-! ## 1. One worker alone -/

/-- One worker by itself, which begins with an empty memo, gets `set` for the ancestors of `t`. -/
def Layer.AnswersAlone (layer : Layer) (known : TypeName → TypeSet) (t : TypeName)
    (set : TypeSet) : Prop :=
  ∃ start final, Crew.Begins layer known [[t]] start ∧ start.Later layer known final ∧
    final.workers = [⟨none, [], [(t, set)]⟩]

/-- Where the direct supertypes of all types are among finitely many names, a type reaches finitely
many. -/
theorem Layer.Spans.finite {names : List TypeName} (h : layer.Spans known names) (t : TypeName) :
    {x | (layer.hierarchy known).Reaches t x}.Finite := by
  refine (List.finite_toSet (t :: names)).subset fun x hx => ?_
  exact List.mem_cons.mpr (h.reaches hx)

/-- Where finitely many types can be reached, some names cover the plans. -/
theorem exists_coversPlans (hfinite : ∀ plan ∈ plans, ∀ t ∈ plan,
    {x | (layer.hierarchy known).Reaches t x}.Finite) :
    ∃ names, CoversPlans layer known names plans := by
  have hall : {x | ∃ t ∈ plans.flatten, (layer.hierarchy known).Reaches t x}.Finite := by
    have hunion : (⋃ t ∈ {t | t ∈ plans.flatten},
        {x | (layer.hierarchy known).Reaches t x}).Finite := by
      refine Set.Finite.biUnion (List.finite_toSet _) fun t ht => ?_
      obtain ⟨plan, hplan, ht⟩ := List.mem_flatten.mp ht
      exact hfinite plan hplan t ht
    refine hunion.subset ?_
    rintro x ⟨t, ht, hx⟩
    exact Set.mem_biUnion ht hx
  refine ⟨hall.toFinset.toList, fun plan hplan t ht => ⟨?_, ?_⟩⟩
  · rintro u ⟨rfl, _⟩
    rw [Finset.mem_toList, Set.Finite.mem_toFinset]
    exact ⟨t, List.mem_flatten.mpr ⟨plan, hplan, ht⟩, .refl⟩
  · intro x hx s hs
    rw [Finset.mem_toList, Set.Finite.mem_toFinset] at hx ⊢
    obtain ⟨u, hu, hreach⟩ := hx
    exact ⟨u, hu, hreach.tail ⟨rfl, hs⟩⟩

/-- A crew of one that is done has one answer. -/
theorem workers_eq_of_done (h : crew.Sound layer known [[t]]) (hdone : crew.Done) :
    ∃ set, crew.workers = [⟨none, [], [(t, set)]⟩] := by
  have hplans := h.plans_eq
  rcases hw : crew.workers with _ | ⟨⟨current, ahead, answered⟩, _ | ⟨w, rest⟩⟩
  · rw [hw] at hplans
    exact absurd hplans (by simp)
  · obtain ⟨hcurrent, hahead⟩ := hdone ⟨current, ahead, answered⟩ (by rw [hw]; simp)
    dsimp only at hcurrent hahead
    subst hcurrent hahead
    rw [hw] at hplans
    have hmap : answered.reverse.map (·.1) = [t] := by simpa [Worker.plan] using hplans
    obtain ⟨⟨u, set⟩, he, rfl⟩ := List.map_eq_singleton_iff.mp hmap
    rw [List.reverse_eq_iff.mp he]
    exact ⟨set, rfl⟩
  · rw [hw] at hplans
    exact absurd hplans (by simp)

/-- **A worker alone gets the answer**, and no other. -/
theorem answersAlone_iff (hfinite : {x | (layer.hierarchy known).Reaches t x}.Finite)
    (hset : (Question.ancestors t).Answers layer known (fun _ => none) set) (set' : TypeSet) :
    layer.AnswersAlone known t set' ↔ set' = set := by
  have hunique : ∀ {start final : Crew} {set' : TypeSet}, Crew.Begins layer known [[t]] start →
      start.Later layer known final → final.workers = [⟨none, [], [(t, set')]⟩] →
        set' = set := by
    intro start final set' hbegins hlater hfinal
    have hsound := (crew_later_sound (begins_sound hbegins) hlater).1
    have hanswers := (hsound.workers ⟨none, [], [(t, set')]⟩ (by rw [hfinal]; simp)).answered
      (t, set') (by simp)
    exact hanswers.1.unique hset
  constructor
  · rintro ⟨start, final, hbegins, hlater, hfinal⟩
    exact hunique hbegins hlater hfinal
  · rintro rfl
    obtain ⟨names, hnames⟩ : ∃ names, CoversPlans layer known names [[t]] :=
      exists_coversPlans fun plan hplan u hu => by
        cases List.mem_singleton.mp hplan
        cases List.mem_singleton.mp hu
        exact hfinite
    obtain ⟨start, hbegins⟩ := exists_begins hnames
    obtain ⟨final, hlater, hdone⟩ := exists_done hnames (begins_sound hbegins)
    obtain ⟨set', hfinal⟩ :=
      workers_eq_of_done (crew_later_sound (begins_sound hbegins) hlater).1 hdone
    cases hunique hbegins hlater hfinal
    exact ⟨start, final, hbegins, hlater, hfinal⟩

/-! ## 2. The memo in the end -/

/-- **A crew that is done has in its memo what can be reached** from the types that the core
registry did not answer for. -/
theorem Crew.Right.has_iff (h : crew.Right layer known plans) (hdone : crew.Done) :
    crew.memo.Has t ↔ ∃ plan ∈ plans, ∃ u ∈ plan,
      ¬ layer.AnswersAtOnce known u ∧ (layer.hierarchy known).Reaches u t := by
  refine ⟨h.origin t, ?_⟩
  rintro ⟨plan, hplan, u, hu, hat, hreach⟩
  -- No worker owes anything any more, so the memo is closed upward.
  have hclosed : ∀ v, crew.memo.Has v → ∀ s ∈ (layer.hierarchy known).above v,
      crew.memo.Has s := by
    intro v hv s hs
    rcases h.closed v hv s hs with hs | ⟨worker, hw, hs⟩
    · exact hs
    · exact absurd hs (by simp [Worker.owed, (hdone worker hw).1])
  induction hreach with
  | refl =>
    rw [← h.plans_eq] at hplan
    obtain ⟨worker, hw, rfl⟩ := List.mem_map.mp hplan
    obtain ⟨hcurrent, hahead⟩ := hdone worker hw
    simp only [Worker.plan, hcurrent, hahead, Option.toList, List.map_nil, List.append_nil,
      List.mem_map, List.mem_reverse] at hu
    obtain ⟨e, he, rfl⟩ := hu
    exact ((h.workers worker hw).answered e he).2 hat
  | tail _ hlead ih => exact hclosed _ ih _ hlead.2

theorem has_iff_of_done (h : crew.Sound layer known plans) (hdone : crew.Done) :
    crew.memo.Has t ↔ ∃ plan ∈ plans, ∃ u ∈ plan,
      ¬ layer.AnswersAtOnce known u ∧ (layer.hierarchy known).Reaches u t :=
  h.toRight.has_iff hdone

/-- **Any order of the workers will do.**  At every moment of every interleaving the sets in the
memo are those of their types, and they stay in it for good; every answer is the one that the
worker would have got alone, and that a registry gives which is asked nothing else; and until all
workers are done, one of them can go on.  When they are, they have asked all their questions, and
the memo has the types that can be reached from those which the core registry did not answer for:
what it has does not depend on the order. -/
theorem crew_interleaving (layer : Layer) (known : TypeName → TypeSet)
    (plans : List (List TypeName))
    (hfinite : ∀ plan ∈ plans, ∀ t ∈ plan, {x | (layer.hierarchy known).Reaches t x}.Finite)
    {start crew : Crew} (hbegins : Crew.Begins layer known plans start)
    (hlater : start.Later layer known crew) :
    (∀ t set, crew.memo.peek? t = some set →
      ∀ x, x ∈ set ↔ layer.space.contains x = true ∧ (layer.hierarchy known).Reaches t x) ∧
    (∀ later, crew.Later layer known later →
      ∀ t set, crew.memo.peek? t = some set → later.memo.peek? t = some set) ∧
    (∀ worker ∈ crew.workers, ∀ t set, (t, set) ∈ worker.answered →
      (∀ set', layer.AnswersAlone known t set' ↔ set' = set) ∧
        ∀ core : Registry, core.answer = known →
          layer.undisturbed core (.ancestors t) = .ok set) ∧
    (crew.Done ∨ ∃ next, crew.Step layer known next) ∧
    (crew.Done →
      crew.workers.map (fun worker => worker.answered.reverse.map (·.1)) = plans ∧
      (∀ t, crew.memo.Has t ↔ ∃ plan ∈ plans, ∃ u ∈ plan,
        ¬ layer.AnswersAtOnce known u ∧ (layer.hierarchy known).Reaches u t) ∧
      ∀ start' crew', Crew.Begins layer known plans start' → start'.Later layer known crew' →
        crew'.Done → ∀ t, crew'.memo.peek? t = crew.memo.peek? t) := by
  have hsound := (crew_later_sound (begins_sound hbegins) hlater).1
  refine ⟨?_, ?_, ?_, ?_, ?_⟩
  · intro t set hset x
    exact (hsound.right t set hset x).trans (Hierarchy.inherits_iff fun _ => rfl)
  · intro later hlater'
    exact (crew_later_sound hsound hlater').2
  · intro worker hw t set he
    have hanswers := ((hsound.workers worker hw).answered (t, set) he).1
    have hplan : worker.plan ∈ plans := by
      rw [← hsound.plans_eq]
      exact List.mem_map_of_mem hw
    have ht : t ∈ worker.plan := by
      have hmem : t ∈ worker.answered.reverse.map (·.1) :=
        List.mem_map.mpr ⟨(t, set), List.mem_reverse.mpr he, rfl⟩
      simp only [Worker.plan, List.mem_append]
      exact .inl (.inl hmem)
    refine ⟨answersAlone_iff (hfinite worker.plan hplan t ht) hanswers, ?_⟩
    rintro core rfl
    obtain ⟨set', hset', hanswers'⟩ := undisturbed_answers core.answers_answer layer (.ancestors t)
    rw [hset', hanswers'.unique hanswers]
  · obtain ⟨names, hnames⟩ := exists_coversPlans hfinite
    by_cases hdone : crew.Done
    · exact .inl hdone
    · exact .inr (exists_step hsound hnames hdone)
  · intro hdone
    refine ⟨?_, fun t => has_iff_of_done hsound hdone, ?_⟩
    · rw [← hsound.plans_eq]
      refine List.map_congr_left fun worker hw => ?_
      simp [Worker.plan, (hdone worker hw).1, (hdone worker hw).2]
    · intro start' crew' hbegins' hlater' hdone' t
      have hsound' := (crew_later_sound (begins_sound hbegins') hlater').1
      exact hsound.right.peek?_eq hsound'.right
        ((has_iff_of_done hsound' hdone').trans (has_iff_of_done hsound hdone).symm)

/-- Two workers that ask about the two types of a cycle. -/
theorem crew_interleaving_cycle :
    let layer : Layer := ⟨.standard, .ofEntries [("a", .ofNames ["b"]),
      ("b", .ofNames ["a", "org/gradle/C"])], .ascending⟩
    let known := Registry.empty.answer
    ∃ start crew, Crew.Begins layer known [["a"], ["b"]] start ∧
      start.Later layer known crew ∧ crew.Done ∧ crew.memo.Has "b" ∧
      crew.memo.Has "org/gradle/C" := by
  intro layer known
  obtain ⟨_, _, hspans⟩ := Registry.empty.answers_answer.spans layer
  have hfinite := fun (plan : List TypeName) (_ : plan ∈ [["a"], ["b"]]) t (_ : t ∈ plan) =>
    hspans.finite t
  obtain ⟨names, hnames⟩ := exists_coversPlans hfinite
  obtain ⟨start, hbegins⟩ := exists_begins hnames
  obtain ⟨crew, hlater, hdone⟩ := exists_done hnames (begins_sound hbegins)
  obtain ⟨_, _, _, _, hend⟩ := crew_interleaving layer known _ hfinite hbegins hlater
  obtain ⟨_, hhas, _⟩ := hend hdone
  have hab : (layer.hierarchy known).Leads "a" "b" := ⟨rfl, by decide +kernel⟩
  have hbc : (layer.hierarchy known).Leads "b" "org/gradle/C" := ⟨rfl, by decide +kernel⟩
  have hask : ¬ layer.AnswersAtOnce known "a" := fun h => absurd h.1 (by decide +kernel)
  have hfrom : ∀ {t}, (layer.hierarchy known).Reaches "a" t → crew.memo.Has t :=
    fun hreach => (hhas _).mpr ⟨["a"], by simp, "a", by simp, hask, hreach⟩
  exact ⟨start, crew, hbegins, hlater, hdone, hfrom (.single hab), hfrom (.head hab (.single hbc))⟩

end Ancestry.Closure
