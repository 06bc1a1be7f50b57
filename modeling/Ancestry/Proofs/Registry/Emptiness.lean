import Ancestry.Proofs.Registry.History

/-!
# Registries without entries

A caller may ask a registry whether it is empty, and put no questions to it if it is.  The test
reads the table and the indexes of the registry (`isEmpty_iff`) and none of its answers, and these
need not be empty: a layer without an index answers a type of its own namespace with the type
itself.  To the layer above it, which may have another namespace, this is what its core registry
knows of the type.  That layer passes it on, or walks along it and comes back to where it was.

So an empty registry knows of a type at most the type itself, on each of its layers, and no ancestor
is missed by a caller that puts no questions to it (`Answers.eq_of_isEmpty`).

Nor does it matter when the caller asks whether the registry is empty.  Any of the layers may have
been asked anything before: their memos grow (`after_keeps`), but the test does not read them
(`ancestors_of_isEmpty`).
-/

namespace Ancestry

/-! ## 1. Tables without entries -/

namespace TypeTable

variable {table : TypeTable}

/-- The table has the type. -/
def Has (table : TypeTable) (t : TypeName) : Prop := ∃ set, table.get? t = some set

/-- An empty table is one that has no type. -/
theorem isEmpty_iff : table.isEmpty = true ↔ ∀ t, ¬ table.Has t := by
  rw [isEmpty, Std.ExtTreeMap.isEmpty_iff, Std.ExtTreeMap.eq_empty_iff_forall_not_mem]
  refine forall_congr' fun t => not_congr ?_
  rw [Std.ExtTreeMap.mem_iff_isSome_getElem?, Option.isSome_iff_exists]
  rfl

theorem mentioned_eq_nil (h : table.isEmpty = true) : table.mentioned = [] := by
  have hnone : table.entries.toList = [] :=
    List.isEmpty_iff.mp (Std.ExtTreeMap.isEmpty_toList.trans h)
  rw [mentioned, hnone, List.flatMap_nil]

end TypeTable

namespace Closure

variable {σ : Type} {layer : Layer} {hooks : List Hook} {core : Registry}
  {known below : TypeName → TypeSet} {t : TypeName} {set : TypeSet}

namespace Registry

/-- The table of the registry has the type, or one of its indexes has. -/
def Has : Registry → TypeName → Prop
  | table ancestors, t => ancestors.Has t
  | layered layer _ core, t => layer.index.Has t ∨ core.Has t

theorem isEmpty_layered (layer : Layer) (hooks : List Hook) (core : Registry) :
    (layered layer hooks core).isEmpty = (layer.index.isEmpty && core.isEmpty) := rfl

/-- An empty registry is one that has no type, on any of its layers. -/
theorem isEmpty_iff : ∀ {registry : Registry}, registry.isEmpty = true ↔ ∀ t, ¬ registry.Has t
  | table _ => TypeTable.isEmpty_iff
  | layered layer hooks core => by
    rw [isEmpty_layered, Bool.and_eq_true, TypeTable.isEmpty_iff, isEmpty_iff, ← forall_and]
    exact forall_congr' fun t => not_or.symm

theorem mentioned_eq_nil : ∀ {registry : Registry}, registry.isEmpty = true →
    registry.mentioned = []
  | table _, h => TypeTable.mentioned_eq_nil h
  | layered layer hooks core, h => by
    rw [isEmpty_layered, Bool.and_eq_true] at h
    rw [mentioned, TypeTable.mentioned_eq_nil h.1, mentioned_eq_nil h.2, List.append_nil]

end Registry

/-! ## 2. What is answered without entries -/

/-- **Over a core registry that knows of each type at most the type itself**, a layer whose index
leads nowhere does not know more.  A core type is its own answer, whether the core registry has
given it or a walk has found it. -/
theorem Question.Answers.eq_self_or_empty (hindex : layer.index.mentioned = [])
    (hknown : ∀ u, ∀ x ∈ known u, x = u)
    (hset : (Question.ancestors t).Answers layer known (fun _ => none) set) :
    set = if layer.space.contains t then .ofNames [t] else ∅ := by
  have hcore : ∀ u, ∀ x ∈ known u, x = u ∨ x ∈ ([] : List TypeName) :=
    fun u x hx => .inl (hknown u x hx)
  have hspans : layer.Spans known [] := by
    have h := layer_spans layer hcore
    rwa [hindex] at h
  have honly : ∀ x ∈ set, x = t := fun x hx =>
    (answers_mem hcore hspans hset hx).resolve_right List.not_mem_nil
  have hself : t ∈ set ↔ layer.space.contains t = true := by
    -- What the core registry has given is not empty, so it is the type itself; a walk ends where it
    -- begins.
    by_cases hat : layer.AnswersAtOnce known t
    · refine iff_of_true ?_ hat.1
      obtain ⟨x, hx⟩ := TypeSet.ne_empty_iff.mp hat.2
      rw [hset.1 hat, ← hknown t x hx]
      exact hknown t x hx ▸ hx
    · rw [hset.2 hat t, Hierarchy.inherits_iff fun _ => rfl]
      exact ⟨And.left, fun hc => ⟨hc, .refl⟩⟩
  refine Std.ExtTreeSet.ext_mem fun x => ?_
  split
  · next hc =>
    rw [TypeSet.mem_ofNames, List.mem_singleton]
    refine ⟨honly x, ?_⟩
    rintro rfl
    exact hself.mpr hc
  · next hc =>
    refine iff_of_false (fun hx => hc (hself.mp ?_)) Std.ExtTreeSet.not_mem_empty
    exact honly x hx ▸ hx

/-- **What an empty registry answers**: a type of the namespace of its topmost layer is answered
with the type itself, and any other with nothing.  The namespaces further down make no
difference. -/
theorem Registry.Answers.eq_of_isEmpty (h : (Registry.layered layer hooks core).Answers known)
    (hempty : (Registry.layered layer hooks core).isEmpty = true) (t : TypeName) :
    known t = if layer.space.contains t then .ofNames [t] else ∅ := by
  obtain ⟨below, hbelow, hknown⟩ := h
  obtain ⟨hindex, hcore⟩ := List.append_eq_nil_iff.mp (Registry.mentioned_eq_nil hempty)
  refine (hknown t).eq_self_or_empty hindex fun u x hx => ?_
  have hmem := hbelow.mem_mentioned u x hx
  rw [hcore] at hmem
  exact hmem.resolve_right List.not_mem_nil

/-! ## 3. The memos of all layers -/

/-- If a state that the core registry comes to is always later than the one it was in, the states
later than a given one may be taken for its valid states. -/
theorem Core.Faithful.since {core : Core σ} {valid : σ → Prop} (h : core.Faithful valid known)
    (later : σ → σ → Prop) (start : σ)
    (hlater : ∀ t s, valid s → later start s → later start (core.ancestors t s).2) :
    core.Faithful (fun s => valid s ∧ later start s) known :=
  ⟨fun t s set hs hset => h.answers t s set hs.1 hset,
    fun t s hs => ⟨h.keeps t s hs.1, hlater t s hs.1 hs.2⟩⟩

namespace Registry

/-- On each layer the memo of the second state has all that the memo of the first one has. -/
def Grows : (registry : Registry) → registry.State → registry.State → Prop
  | table _, _, _ => True
  | layered _ _ core, world, world' =>
    world.memo.Grows world'.memo ∧ core.Grows world.core world'.core

theorem Grows.refl : ∀ {registry : Registry} (state : registry.State), registry.Grows state state
  | table _, _ => trivial
  | layered _ _ _, world => ⟨.refl world.memo, Grows.refl world.core⟩

theorem Grows.trans : ∀ {registry : Registry} {state state' state'' : registry.State},
    registry.Grows state state' → registry.Grows state' state'' → registry.Grows state state''
  | table _, _, _, _, _, _ => trivial
  | layered _ _ _, _, _, _, h, h' => ⟨h.1.trans h'.1, h.2.trans h'.2⟩

/-- If the memos of the core registry grow whenever it is asked, a question to the layer above it
makes all memos grow. -/
theorem query_grows (hbelow : core.Answers below)
    (hcore : ∀ t state, core.Sound state → core.Grows state (core.toCore.ancestors t state).2)
    {world : World core.State Watch} (h : world.Sound layer below core.Sound)
    (question : Question) :
    (layered layer hooks core).Grows world (layer.query core.toCore question world).2 := by
  obtain ⟨names, hlen, hspans⟩ := hbelow.spans layer
  have hfaithful := (toCore_faithful hbelow).since core.Grows world.core
    fun t state hs hlater => hlater.trans (hcore t state hs)
  obtain ⟨hsound, hgrows, _⟩ :=
    query_sound hspans hlen hfaithful ⟨h.memo, h.core, Grows.refl world.core⟩ question
  exact ⟨hgrows, hsound.core.2⟩

theorem toCore_grows : ∀ {registry : Registry} {known : TypeName → TypeSet},
    registry.Answers known → ∀ t (state : registry.State), registry.Sound state →
      registry.Grows state (registry.toCore.ancestors t state).2
  | table _, _, _, _, _, _ => trivial
  | layered _ _ _, _, ⟨below, hbelow, _⟩, t, _, h =>
    query_grows hbelow (toCore_grows hbelow) (h below hbelow) (.ancestors t)

/-! ## 4. Calls to any of the layers -/

/-- What can be asked of a registry: whether it is empty, a question of its topmost layer, or
anything of the core registry of that layer. -/
inductive Call : Registry → Type
  | isEmpty {registry : Registry} : Call registry
  | ask {layer : Layer} {hooks : List Hook} {core : Registry} (question : Question) :
    Call (layered layer hooks core)
  | ofCore {layer : Layer} {hooks : List Hook} {core : Registry} (call : Call core) :
    Call (layered layer hooks core)

/-- What comes back from a call. -/
inductive Reply
  | outcome (outcome : Outcome)
  | emptiness (isEmpty : Bool)

/-- Makes a call. -/
def Call.put : {registry : Registry} → registry.Call → registry.State → Reply × registry.State
  | registry, isEmpty, state => (.emptiness registry.isEmpty, state)
  | _, @ask layer _ core question, world =>
    let (outcome, world) := layer.query core.toCore question world
    (.outcome outcome, world)
  | _, ofCore call, world =>
    let (reply, state) := call.put world.core
    (reply, { world with core := state })

/-- What a registry becomes by calls, of which the first one comes first. -/
def after (registry : Registry) (calls : List registry.Call) (state : registry.State) :
    registry.State :=
  calls.foldl (fun state call => (call.put state).2) state

/-- **A call to any layer keeps the memos of all layers right**, and takes nothing out of them. -/
theorem Call.put_keeps : ∀ {registry : Registry} (call : registry.Call) {state : registry.State},
    registry.Sound state →
      registry.Sound (call.put state).2 ∧ registry.Grows state (call.put state).2
  | _, isEmpty, state, h => ⟨h, .refl state⟩
  | _, @ask layer _ core question, world, h => by
    have hbelow := core.answers_answer
    refine ⟨fun below' hbelow' => ?_, ?_⟩
    · exact (query_right hbelow' (h below' hbelow') question).1
    · exact query_grows hbelow (toCore_grows hbelow) (h core.answer hbelow) question
  | _, @ofCore _ _ core call, world, h => by
    obtain ⟨hsound, hgrows⟩ := call.put_keeps (h core.answer core.answers_answer).core
    exact ⟨fun below' hbelow' => ⟨(h below' hbelow').memo, hsound⟩, .refl world.memo, hgrows⟩

/-- A call to any layer lets no hook cut anything short if none did so before. -/
theorem Call.put_patient : ∀ {registry : Registry} (call : registry.Call)
    {state : registry.State}, registry.Sound state → registry.Patient state →
      registry.Patient (call.put state).2
  | _, isEmpty, _, _, hpatient => hpatient
  | _, @ask _ _ core question, _, h, hpatient =>
    (query_answered core.answers_answer (h _ core.answers_answer) hpatient question).2
  | _, @ofCore _ _ core call, _, h, hpatient =>
    ⟨hpatient.listener, call.put_patient (h _ core.answers_answer).core hpatient.core⟩

theorem after_keeps {registry : Registry} (calls : List registry.Call) :
    ∀ {state : registry.State}, registry.Sound state →
      registry.Sound (registry.after calls state) ∧
        registry.Grows state (registry.after calls state) := by
  induction calls with
  | nil => exact fun {state} h => ⟨h, .refl state⟩
  | cons call calls ih =>
    intro state h
    obtain ⟨hsound, hgrows⟩ := call.put_keeps h
    obtain ⟨hsound', hgrows'⟩ := ih hsound
    exact ⟨hsound', hgrows.trans hgrows'⟩

theorem after_patient {registry : Registry} (calls : List registry.Call) :
    ∀ {state : registry.State}, registry.Sound state → registry.Patient state →
      registry.Patient (registry.after calls state) := by
  induction calls with
  | nil => exact fun _ hpatient => hpatient
  | cons call calls ih =>
    exact fun h hpatient => ih (call.put_keeps h).1 (call.put_patient h hpatient)

end Registry

/-! ## 5. Callers that need not ask -/

/-- **Nothing is missed by a caller that does not ask an empty registry.**  Whatever calls are made
to any of its layers, earlier and later, a registry says the same each time it is asked whether it
is empty, namely whether none of its layers has an entry, and meanwhile the memos of its layers only
grow.  If it says that it is empty, a type of the namespace of its topmost layer has itself for its
only ancestor from then on, and any other type has none.  Where no hook cuts anything short, this is
what is answered. -/
theorem ancestors_of_isEmpty (layer : Layer) (hooks : List Hook) (core : Registry)
    (earlier later : List (Registry.layered layer hooks core).Call) (t : TypeName) :
    let registry := Registry.layered layer hooks core
    let state := registry.after earlier registry.fresh
    let state' := registry.after later state
    let alone : TypeSet := if layer.space.contains t then .ofNames [t] else ∅
    (Registry.Call.isEmpty.put state').1 = (Registry.Call.isEmpty.put state).1 ∧
      registry.Grows state state' ∧
      ((Registry.Call.isEmpty.put state).1 = .emptiness true ↔ ∀ u, ¬ registry.Has u) ∧
      ((Registry.Call.isEmpty.put state).1 = .emptiness true →
        (∀ set, (registry.ancestors t state').1 = .ok set → set = alone) ∧
        (registry.Patient registry.fresh → (registry.ancestors t state').1 = .ok alone)) := by
  intro registry state state' alone
  have hanswers := registry.answers_answer
  obtain ⟨hsound, _⟩ := Registry.after_keeps earlier registry.sound_fresh
  obtain ⟨hsound', hgrows⟩ := Registry.after_keeps later hsound
  have htest : (Registry.Call.isEmpty.put state).1 = .emptiness true ↔ registry.isEmpty = true :=
    ⟨Registry.Reply.emptiness.inj, congrArg Registry.Reply.emptiness⟩
  refine ⟨rfl, hgrows, htest.trans Registry.isEmpty_iff, fun hempty => ?_⟩
  have halone : ∀ set, (registry.ancestors t state').1 = .ok set → set = alone := by
    intro set hset
    rw [(Registry.toCore_faithful hanswers).answers t state' set hsound' hset]
    exact hanswers.eq_of_isEmpty (htest.mp hempty) t
  refine ⟨halone, fun hfresh => ?_⟩
  have hpatient := Registry.after_patient earlier registry.sound_fresh hfresh
  have hpatient' := Registry.after_patient later hsound hpatient
  obtain ⟨set, hset⟩ := (Registry.toCore_steady hanswers).answers t state' hsound' hpatient'
  exact hset.trans (congrArg _ (halone set hset))

/-- Three layers without entries, of which the middle one takes all types of `lib` for core types
and the topmost one only some of them.  Both have walked, and what they found is in their memos. -/
theorem ancestors_of_isEmpty_nested :
    let layer : Layer := ⟨⟨"lib/core/"⟩, .empty, .ascending⟩
    let core : Registry := .layered ⟨⟨"lib/"⟩, .empty, .ascending⟩ []
      (.layered ⟨.standard, .empty, .ascending⟩ [] .empty)
    let registry := Registry.layered layer [] core
    let earlier : List registry.Call := [.ofCore (.ask (.ancestors "lib/B")), .isEmpty]
    let later : List registry.Call := [.ask (.closure "lib/core/A"), .ask (.ancestors "lib/B")]
    let state := registry.after earlier registry.fresh
    let world : World core.State Watch := registry.after later state
    ((Registry.Call.isEmpty.put state).1 = .emptiness true ∧ registry.Patient registry.fresh) ∧
      (registry.ancestors "lib/core/A" world).1 = .ok (.ofNames ["lib/core/A"]) ∧
      (registry.ancestors "lib/B" world).1 = .ok ∅ ∧
      world.memo.peek? "lib/core/A" = some (.ofNames ["lib/core/A"]) ∧
      world.core.memo.peek? "lib/B" = some (.ofNames ["lib/B"]) := by
  intro layer core registry earlier later state world
  have hempty : (Registry.Call.isEmpty.put state).1 = .emptiness true := rfl
  have hpatient : registry.Patient registry.fresh := Registry.patient_unhooked registry
  have hanswers := fun t => ancestors_of_isEmpty layer [] core earlier later t
  have hA := ((hanswers "lib/core/A").2.2.2 hempty).2 hpatient
  have hB := ((hanswers "lib/B").2.2.2 hempty).2 hpatient
  rw [if_pos (by decide +kernel)] at hA
  rw [if_neg (by decide +kernel)] at hB
  exact ⟨⟨hempty, hpatient⟩, hA, hB, by decide +kernel, by decide +kernel⟩

end Closure
end Ancestry
