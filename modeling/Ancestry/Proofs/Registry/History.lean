import Ancestry.Proofs.Registry.Sound

/-!
# Answers after any history

The memo and the used-up hooks are all that earlier questions leave behind.  The memo stays right
and no hook cuts anything short if none did so at first (`after_sound`, `after_patient`), so what a
registry answers does not depend on what it was asked before: it is the core registry's own answer,
if that is not empty, and otherwise the core types that can be reached from the type
(`query_after_history`).
-/

namespace Ancestry.Closure

/-- What the queries of a layer share after a history of questions, of which the first one comes
first. -/
def Layer.after {σ : Type} (layer : Layer) (core : Core σ) (history : List Question)
    (world : World σ Watch) : World σ Watch :=
  history.foldl (fun world question => (layer.query core question world).2) world

variable {layer : Layer} {core : Registry} {below : TypeName → TypeSet}
  {world : World core.State Watch}

/-! ## 1. One question -/

/-- A question put to a layer over a registry keeps the memos right, and its answer is right. -/
theorem query_right (hbelow : core.Answers below) (h : world.Sound layer below core.Sound)
    (question : Question) :
    (layer.query core.toCore question world).2.Sound layer below core.Sound ∧
      ∀ set, (layer.query core.toCore question world).1 = .ok set →
        question.Answers layer below (fun _ => none) set := by
  obtain ⟨names, hlen, hspans⟩ := hbelow.spans layer
  obtain ⟨hs, _, hanswers⟩ :=
    query_sound hspans hlen (Registry.toCore_faithful hbelow) h question
  exact ⟨hs, hanswers⟩

/-- A question put to a layer whose hooks cut nothing short is answered. -/
theorem query_answered (hbelow : core.Answers below) (h : world.Sound layer below core.Sound)
    (hpatient : world.Patient core.Patient) (question : Question) :
    (∃ set, (layer.query core.toCore question world).1 = .ok set ∧
      question.Answers layer below (fun _ => none) set) ∧
      (layer.query core.toCore question world).2.Patient core.Patient := by
  obtain ⟨names, hlen, hspans⟩ := hbelow.spans layer
  obtain ⟨⟨set, hset⟩, hp⟩ := query_answers hspans hlen (Registry.toCore_faithful hbelow)
    (Registry.toCore_steady hbelow) h hpatient question
  exact ⟨⟨set, hset, (query_right hbelow h question).2 set hset⟩, hp⟩

/-! ## 2. Any number of questions -/

theorem after_sound (hbelow : core.Answers below) :
    ∀ (history : List Question) {world : World core.State Watch},
      world.Sound layer below core.Sound →
        (layer.after core.toCore history world).Sound layer below core.Sound
  | [], _, h => h
  | question :: history, _, h => after_sound hbelow history (query_right hbelow h question).1

theorem after_patient (hbelow : core.Answers below) :
    ∀ (history : List Question) {world : World core.State Watch},
      world.Sound layer below core.Sound → world.Patient core.Patient →
        (layer.after core.toCore history world).Patient core.Patient
  | [], _, _, hp => hp
  | question :: history, _, h, hp =>
    after_patient hbelow history (query_right hbelow h question).1
      (query_answered hbelow h hp question).2

/-- **What a registry answers after any history.**  Its core registry still answers what a new one
answers.  The ancestors of a core type are that answer, if it is not empty, and those of any other
type are the core types that it reaches; the closure of a type is always that. -/
theorem query_after_history (layer : Layer) (hooks : List Hook) (core : Registry)
    (hpatient :
      (Registry.layered layer hooks core).Patient (Registry.layered layer hooks core).fresh)
    (history : List Question) (t : TypeName) :
    let H := layer.hierarchy core.answer
    let world := layer.after core.toCore history (Registry.layered layer hooks core).fresh
    (∀ u, (core.ancestors u world.core).1 = .ok (core.answer u)) ∧
      (layer.AnswersAtOnce core.answer t →
        (layer.query core.toCore (.ancestors t) world).1 = .ok (core.answer t)) ∧
      (¬ layer.AnswersAtOnce core.answer t →
        ∃ set, (layer.query core.toCore (.ancestors t) world).1 = .ok set ∧
          ∀ x, x ∈ set ↔ layer.space.contains x = true ∧ H.Reaches t x) ∧
      ∃ set, (layer.query core.toCore (.closure t) world).1 = .ok set ∧
        ∀ x, x ∈ set ↔ layer.space.contains x = true ∧ H.Reaches t x := by
  intro H world
  have hbelow := core.answers_answer
  have hfresh := (Registry.layered layer hooks core).sound_fresh core.answer hbelow
  have hsound : world.Sound layer core.answer core.Sound := after_sound hbelow history hfresh
  have hworld : world.Patient core.Patient := after_patient hbelow history hfresh hpatient
  have hreach : ∀ {set : TypeSet}, H.Denotes set t →
      ∀ x, x ∈ set ↔ layer.space.contains x = true ∧ H.Reaches t x :=
    fun hset x => (hset x).trans (Hierarchy.inherits_iff fun _ => rfl)
  obtain ⟨⟨set, hset, hanswers⟩, _⟩ := query_answered hbelow hsound hworld (.ancestors t)
  obtain ⟨⟨set', hset', hclosure⟩, _⟩ := query_answered hbelow hsound hworld (.closure t)
  refine ⟨fun u => ?_, fun hat => ?_, fun hat => ?_, set', hset', hreach hclosure⟩
  · obtain ⟨known, hknown⟩ :=
      (Registry.toCore_steady hbelow).answers u world.core hsound.core hworld.core
    exact hknown.trans (congrArg _
      ((Registry.toCore_faithful hbelow).answers u world.core known hsound.core hknown))
  · rw [hset, hanswers.1 hat]
  · exact ⟨set, hset, hreach (hanswers.2 hat)⟩

/-- Two types on a cycle, asked for after a query within which a hook asked another one. -/
theorem query_after_history_cycle :
    let layer : Layer := ⟨.standard, .ofEntries [("a", .ofNames ["b"]),
      ("b", .ofNames ["a", "org/gradle/C"])], .ascending⟩
    let core : Registry := .table (.ofEntries [("org/gradle/C", .ofNames ["org/gradle/D"])])
    let hooks : List Hook := [⟨⟨.cacheStore, "b"⟩, .query "a"⟩]
    let world := layer.after core.toCore [.ancestors "b"] (Registry.layered layer hooks core).fresh
    (Registry.layered layer hooks core).Patient (Registry.layered layer hooks core).fresh ∧
      ∃ set, (layer.query core.toCore (.closure "a") world).1 = .ok set ∧
        "org/gradle/D" ∈ set := by
  intro layer core hooks world
  have hpatient :
      (Registry.layered layer hooks core).Patient (Registry.layered layer hooks core).fresh :=
    ⟨⟨rfl, fun hook h => by cases List.mem_singleton.mp h; exact ⟨"a", rfl⟩⟩, trivial⟩
  obtain ⟨_, _, _, set, hset, hmem⟩ :=
    query_after_history layer hooks core hpatient [.ancestors "b"] "a"
  refine ⟨hpatient, set, hset, (hmem _).mpr ⟨by decide +kernel, ?_⟩⟩
  have hab : (layer.hierarchy core.answer).Leads "a" "b" := ⟨rfl, by decide +kernel⟩
  have hbc : (layer.hierarchy core.answer).Leads "b" "org/gradle/C" := ⟨rfl, by decide +kernel⟩
  have hcd : (layer.hierarchy core.answer).Leads "org/gradle/C" "org/gradle/D" :=
    ⟨rfl, by decide +kernel⟩
  exact .head hab (.head hbc (.single hcd))

end Ancestry.Closure
