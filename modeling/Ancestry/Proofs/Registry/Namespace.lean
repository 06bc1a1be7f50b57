import Ancestry.Proofs.Registry.History

/-!
# Answers and the core namespace

A walk collects core types only, and so does the memo.  The core registry's own answer for a core
type is passed on as it is, though, and nobody asks whether the names in it are core types: the
table of a core registry may give a core type any ancestors.  This is the one way for a name from
outside the core namespace to get into an answer (`ancestors_within_iff`).
-/

namespace Ancestry

/-- All members of the set are core types. -/
def CoreNamespace.Within (space : CoreNamespace) (set : TypeSet) : Prop :=
  ∀ x ∈ set, space.contains x = true

namespace Closure

variable {layer : Layer} {known : TypeName → TypeSet} {t : TypeName} {set : TypeSet}

/-- What a walk collects is in the core namespace. -/
theorem within_of_denotes (h : (layer.hierarchy known).Denotes set t) :
    layer.space.Within set := by
  intro x hx
  exact ((Hierarchy.inherits_iff fun _ => rfl).mp ((h x).mp hx)).1

/-- **When answers stay inside the core namespace.**  After any history and under any hooks, the
ancestors of a type are core types, unless the type is one itself and the core registry's own
answer for it has a name from outside; the closure of a type has core types only, and so have the
sets in the memo.  Where no hook cuts anything short there is an answer. -/
theorem ancestors_within_iff (layer : Layer) (hooks : List Hook) (core : Registry)
    (history : List Question) (t : TypeName) :
    let world := layer.after core.toCore history (Registry.layered layer hooks core).fresh
    (∀ set, (layer.query core.toCore (.ancestors t) world).1 = .ok set →
      (layer.space.Within set ↔
        ¬ (layer.space.contains t = true ∧
          ∃ x ∈ core.answer t, layer.space.contains x = false))) ∧
    (∀ set, (layer.query core.toCore (.closure t) world).1 = .ok set →
      layer.space.Within set) ∧
    (∀ u set, world.memo.peek? u = some set → layer.space.Within set) ∧
    ((Registry.layered layer hooks core).Patient (Registry.layered layer hooks core).fresh →
      ∃ set, (layer.query core.toCore (.ancestors t) world).1 = .ok set) := by
  intro world
  have hbelow := core.answers_answer
  have hfresh := (Registry.layered layer hooks core).sound_fresh core.answer hbelow
  have hsound : world.Sound layer core.answer core.Sound := after_sound hbelow history hfresh
  refine ⟨?_, ?_, ?_, ?_⟩
  · intro set hset
    obtain ⟨hatonce, hwalk⟩ := (query_right hbelow hsound (.ancestors t)).2 set hset
    -- Only an answer that the core registry gives at once gets around the filter of the walk.
    by_cases hat : layer.AnswersAtOnce core.answer t
    · rw [hatonce hat]
      constructor
      · rintro hwithin ⟨_, x, hx, hout⟩
        exact absurd (hwithin x hx) (by simp [hout])
      · intro hnone x hx
        cases hout : layer.space.contains x with
        | true => rfl
        | false => exact absurd ⟨hat.1, x, hx, hout⟩ hnone
    · refine ⟨?_, fun _ => within_of_denotes (hwalk hat)⟩
      rintro _ ⟨hcore, x, hx, _⟩
      refine hat ⟨hcore, ?_⟩
      intro hempty
      rw [hempty] at hx
      exact absurd hx (by simp)
  · intro set hset
    exact within_of_denotes ((query_right hbelow hsound (.closure t)).2 set hset)
  · intro u set hset
    exact within_of_denotes (hsound.memo u set hset)
  · intro hpatient
    obtain ⟨⟨set, hset, _⟩, _⟩ :=
      query_answered hbelow hsound (after_patient hbelow history hfresh hpatient) (.ancestors t)
    exact ⟨set, hset⟩

/-- A table that gives a core type an ancestor from outside the namespace is believed. -/
theorem ancestors_outside :
    let layer : Layer := ⟨.standard, .ofEntries [], .ascending⟩
    let core : Registry :=
      .table (.ofEntries [("org/gradle/A", .ofNames ["java/lang/Object", "org/gradle/B"])])
    ∃ set, (layer.query core.toCore (.ancestors "org/gradle/A")
        (Registry.layered layer [] core).fresh).1 = .ok set ∧
      "java/lang/Object" ∈ set ∧ layer.space.contains "java/lang/Object" = false := by
  intro layer core
  have hbelow := core.answers_answer
  have hpatient : (Registry.layered layer [] core).Patient (Registry.layered layer [] core).fresh :=
    ⟨⟨rfl, fun _ h => absurd h List.not_mem_nil⟩, trivial⟩
  obtain ⟨⟨set, hset, hanswers⟩, _⟩ := query_answered hbelow
    ((Registry.layered layer [] core).sound_fresh core.answer hbelow) hpatient
    (.ancestors "org/gradle/A")
  have hmem : "java/lang/Object" ∈ core.answer "org/gradle/A" := by decide +kernel
  have hat : layer.AnswersAtOnce core.answer "org/gradle/A" := by
    refine ⟨by decide +kernel, fun hempty => ?_⟩
    rw [hempty] at hmem
    exact absurd hmem (by simp)
  exact ⟨set, hset, by rw [hanswers.1 hat]; exact hmem, by decide +kernel⟩

end Closure
end Ancestry
