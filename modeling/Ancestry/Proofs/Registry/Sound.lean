import Ancestry.Closure.Registry
import Ancestry.Proofs.Session.Outcome

/-!
# Registries give one answer

A registry is a layer over a registry over a registry, each with a memo that grows and hooks that
get used up.  `Registry.Answers` says what it is to answer, layer by layer and without any state;
there is one such function for a registry at most (`Answers.unique`), and `Registry.answer` is
it (`answers_answer`).  Whatever state a registry has got into, it answers this or cuts the query
short (`toCore_faithful`), and while no hook cuts a query short it answers (`toCore_steady`).

All of it is by induction on the layers: what is shown of a registry is what a layer above it asks
of its core registry.
-/

namespace Ancestry

namespace TypeTable

variable {table : TypeTable} {t x : TypeName} {set : TypeSet}

/-- The members of all sets of the table. -/
def mentioned (table : TypeTable) : List TypeName := table.entries.toList.flatMap (·.2.toList)

theorem mem_mentioned (h : table.get? t = some set) (hx : x ∈ set) : x ∈ table.mentioned := by
  refine List.mem_flatMap.mpr ⟨(t, set), ?_, Std.ExtTreeSet.mem_toList.mpr hx⟩
  exact Std.ExtTreeMap.mem_toList_iff_getElem?_eq_some.mpr h

theorem mem_mentioned_of_getD (hx : x ∈ table.getD t) : x ∈ table.mentioned := by
  unfold getD at hx
  cases hg : table.get? t with
  | some set =>
    rw [hg] at hx
    exact mem_mentioned hg hx
  | none =>
    rw [hg] at hx
    exact absurd hx (by simp)

theorem length_mentioned_le (table : TypeTable) : table.mentioned.length ≤ table.extent := by
  have hfold : ∀ (entries : List (TypeName × TypeSet)) (n : Nat),
      n + (entries.flatMap (·.2.toList)).length ≤
        entries.foldl (fun n e => n + 1 + e.2.size) n := by
    intro entries
    induction entries with
    | nil => exact fun n => Nat.le_refl n
    | cons e entries ih =>
      intro n
      have hrest := ih (n + 1 + e.2.size)
      rw [List.flatMap_cons, List.length_append, Std.ExtTreeSet.length_toList, List.foldl_cons]
      omega
  have hle := hfold table.entries.toList 0
  rw [Nat.zero_add] at hle
  exact hle

end TypeTable

namespace Closure

/-! ## 1. The names that answers are made of -/

section
variable {layer : Layer} {known : TypeName → TypeSet} {names : List TypeName}

/-- Walking up, a layer comes by the names of its index and by those of its core registry. -/
theorem layer_spans (layer : Layer) (hknown : ∀ t, ∀ x ∈ known t, x = t ∨ x ∈ names) :
    layer.Spans known (layer.index.mentioned ++ names) := by
  intro t s hs
  simp only [Layer.hierarchy] at hs
  split at hs
  · next declared hd => exact .inr (List.mem_append_left _ (TypeTable.mem_mentioned hd hs))
  · split at hs
    · exact (hknown t s hs).imp_right (List.mem_append_right _)
    · exact absurd hs (by simp)

/-- Besides the name that is asked about, an answer holds the names that the layer spans. -/
theorem answers_mem {t x : TypeName} {set : TypeSet}
    (hknown : ∀ t, ∀ x ∈ known t, x = t ∨ x ∈ names) (hnames : layer.Spans known names)
    (hset : (Question.ancestors t).Answers layer known (fun _ => none) set) (hx : x ∈ set) :
    x = t ∨ x ∈ names := by
  by_cases hat : layer.AnswersAtOnce known t
  · rw [hset.1 hat] at hx
    exact hknown t x hx
  · have hreach := ((Hierarchy.inherits_iff fun _ => rfl).mp ((hset.2 hat x).mp hx)).2
    exact hnames.reaches hreach

end

namespace Registry

/-! ## 2. What a registry is to answer -/

/-- `known` is what the registry is to answer, on each of its layers. -/
def Answers : Registry → (TypeName → TypeSet) → Prop
  | table ancestors, known => ∀ t, known t = ancestors.getD t
  | layered layer _ core, known => ∃ below, core.Answers below ∧
      ∀ t, (Question.ancestors t).Answers layer below (fun _ => none) (known t)

/-- A registry has one answer to each question. -/
theorem Answers.unique : ∀ {registry : Registry} {known known' : TypeName → TypeSet},
    registry.Answers known → registry.Answers known' → known = known'
  | table _, _, _, h, h' => funext fun t => (h t).trans (h' t).symm
  | layered _ _ _, _, _, ⟨_, hbelow, hknown⟩, ⟨_, hbelow', hknown'⟩ => by
    cases hbelow.unique hbelow'
    exact funext fun t => (hknown t).unique (hknown' t)

/-- All memos of a registry are right. -/
def Sound : (registry : Registry) → registry.State → Prop
  | table _, _ => True
  | layered layer _ core, world =>
    ∀ below, core.Answers below → World.Sound layer below core.Sound world

/-- No hook of a registry cuts a query short. -/
def Patient : (registry : Registry) → registry.State → Prop
  | table _, _ => True
  | layered _ _ core, world => World.Patient core.Patient world

/-- The members of all sets of the tables and indexes of a registry. -/
def mentioned : Registry → List TypeName
  | table ancestors => ancestors.mentioned
  | layered layer _ core => layer.index.mentioned ++ core.mentioned

theorem length_mentioned_le : ∀ registry : Registry,
    registry.mentioned.length ≤ registry.toCore.extent
  | table ancestors => ancestors.length_mentioned_le
  | layered layer _ core => by
    rw [mentioned, List.length_append]
    exact Nat.add_le_add layer.index.length_mentioned_le core.length_mentioned_le

/-- Besides the name that is asked about, an answer holds names that the registry mentions. -/
theorem Answers.mem_mentioned : ∀ {registry : Registry} {known : TypeName → TypeSet},
    registry.Answers known → ∀ t, ∀ x ∈ known t, x = t ∨ x ∈ registry.mentioned
  | table ancestors, known, h, t, x, hx => by
    rw [h t] at hx
    exact .inr (TypeTable.mem_mentioned_of_getD hx)
  | layered layer hooks core, known, ⟨below, hbelow, hknown⟩, t, x, hx => by
    have hcore := hbelow.mem_mentioned
    exact answers_mem (fun t x hx => (hcore t x hx).imp_right (List.mem_append_right _))
      (layer_spans layer hcore) (hknown t) hx

/-- A layer over the registry spans the names that either of them mentions. -/
theorem Answers.spans_mentioned {core : Registry} {below : TypeName → TypeSet}
    (h : core.Answers below) (layer : Layer) :
    (layer.index.mentioned ++ core.mentioned).length ≤ layer.index.extent + core.toCore.extent ∧
      layer.Spans below (layer.index.mentioned ++ core.mentioned) :=
  ⟨(layered layer [] core).length_mentioned_le, layer_spans layer h.mem_mentioned⟩

/-- A layer over the registry spans as many names as it says. -/
theorem Answers.spans {core : Registry} {below : TypeName → TypeSet} (h : core.Answers below)
    (layer : Layer) : ∃ names : List TypeName,
      names.length ≤ layer.index.extent + core.toCore.extent ∧ layer.Spans below names :=
  ⟨_, h.spans_mentioned layer⟩

/-! ## 3. Any state of a registry -/

/-- **Whatever state a registry has got into, its answers are right.** -/
theorem toCore_faithful : ∀ {registry : Registry} {known : TypeName → TypeSet},
    registry.Answers known → registry.toCore.Faithful registry.Sound known
  | table ancestors, known, h => by
    refine ⟨fun t s set _ hset => ?_, fun t s _ => trivial⟩
    cases hset
    exact (h t).symm
  | layered layer hooks core, known, ⟨below, hbelow, hknown⟩ => by
    -- By induction the core registry gives the answers `below` in any state, which is all that a
    -- query of the layer asks of it.
    obtain ⟨names, hlen, hspans⟩ := hbelow.spans layer
    have hquery := fun t (s : State (layered layer hooks core)) (hs : Sound _ s) =>
      query_sound hspans hlen (toCore_faithful hbelow) (hs below hbelow) (.ancestors t)
    refine ⟨fun t s set hs hset => ?_, fun t s hs below' hbelow' => ?_⟩
    · exact ((hquery t s hs).2.2 set hset).unique (hknown t)
    · cases hbelow'.unique hbelow
      exact (hquery t s hs).1

/-- **A registry whose hooks cut nothing short answers.** -/
theorem toCore_steady : ∀ {registry : Registry} {known : TypeName → TypeSet},
    registry.Answers known → registry.toCore.Steady registry.Sound registry.Patient
  | table ancestors, known, h => ⟨fun t s _ _ => ⟨_, rfl⟩, fun t s _ _ => trivial⟩
  | layered layer hooks core, known, ⟨below, hbelow, hknown⟩ => by
    obtain ⟨names, hlen, hspans⟩ := hbelow.spans layer
    have hquery := fun t (s : State (layered layer hooks core)) (hs : Sound _ s)
        (hp : Patient _ s) =>
      query_answers hspans hlen (toCore_faithful hbelow) (toCore_steady hbelow)
        (hs below hbelow) hp (.ancestors t)
    exact ⟨fun t s hs hp => (hquery t s hs hp).1, fun t s hs hp => (hquery t s hs hp).2⟩

theorem sound_fresh : ∀ registry : Registry, registry.Sound registry.fresh
  | table _ => trivial
  | layered _ _ core => fun _ _ => ⟨Memo.sound_empty, core.sound_fresh⟩

/-! ## 4. Without hooks -/

/-- The registry without any hook, on any of its layers. -/
def unhooked : Registry → Registry
  | table ancestors => table ancestors
  | layered layer _ core => layered layer [] core.unhooked

theorem patient_unhooked : ∀ registry : Registry, registry.unhooked.Patient registry.unhooked.fresh
  | table _ => trivial
  | layered _ _ core =>
    ⟨⟨rfl, fun _ h => absurd h List.not_mem_nil⟩, core.patient_unhooked⟩

/-- Hooks do not change what a registry is to answer. -/
theorem Answers.unhooked : ∀ {registry : Registry} {known : TypeName → TypeSet},
    registry.Answers known → registry.unhooked.Answers known
  | table _, _, h => h
  | layered _ _ _, _, ⟨below, hbelow, hknown⟩ => ⟨below, hbelow.unhooked, hknown⟩

end Registry

/-- What a question comes to that is put to a new layer, over a new core registry, with no hook on
either. -/
def Layer.undisturbed (layer : Layer) (core : Registry) (question : Question) : Outcome :=
  (layer.query core.unhooked.toCore question ⟨.empty, core.unhooked.fresh, { hooks := [] }⟩).1

/-- **A question that nothing disturbs is answered**, and rightly. -/
theorem undisturbed_answers {core : Registry} {below : TypeName → TypeSet}
    (h : core.Answers below) (layer : Layer) (question : Question) :
    ∃ set, layer.undisturbed core question = .ok set ∧
      question.Answers layer below (fun _ => none) set := by
  obtain ⟨names, hlen, hspans⟩ := h.unhooked.spans layer
  have hfaithful := Registry.toCore_faithful h.unhooked
  have hworld : World.Sound layer below core.unhooked.Sound
      (⟨.empty, core.unhooked.fresh, { hooks := [] }⟩ : World core.unhooked.State Watch) :=
    ⟨Memo.sound_empty, core.unhooked.sound_fresh⟩
  obtain ⟨⟨set, hset⟩, _⟩ := query_answers hspans hlen hfaithful (Registry.toCore_steady h.unhooked)
    hworld (Registry.patient_unhooked (.layered layer [] core)) question
  exact ⟨set, hset, (query_sound hspans hlen hfaithful hworld question).2.2 set hset⟩

namespace Registry

/-- The ancestors of a type, as a new registry without hooks answers them. -/
def answer : Registry → TypeName → TypeSet
  | table ancestors, t => ancestors.getD t
  | layered layer _ core, t => ((layer.undisturbed core (.ancestors t)).toOption).getD ∅

/-- **Every registry has its answers**, and new ones give them. -/
theorem answers_answer : ∀ registry : Registry, registry.Answers registry.answer
  | table _ => fun _ => rfl
  | layered layer hooks core => by
    have hcore := core.answers_answer
    refine ⟨core.answer, hcore, fun t => ?_⟩
    obtain ⟨set, hset, hanswers⟩ := undisturbed_answers hcore layer (.ancestors t)
    simp only [answer, hset]
    exact hanswers

end Registry
end Closure
end Ancestry
