import Ancestry.Proofs.Registry.Accounting
import Ancestry.Proofs.Session.Local

/-!
# Registries stacked on themselves

A registry may be the core registry of another one with the same namespace and the same index, and
that one of a third.  The registries of such a tower do not walk the same graph: to the lowest one a
core type of which nothing is known is a type without supertypes, to all others it is its own direct
supertype, since the registry below them answers the type itself.  And they do not walk in the same
cases: an answer for a core type is never empty any more, so all but the lowest registry pass on
what the one below them answers.

None of this changes what is reached (`Closes.reaches_iff`), so a layer over its own answers answers
the same again (`Closes.again`), and so do all registries of a tower, whichever of them were asked
what before (`tower_agrees`).
-/

namespace Ancestry.Closure

variable {σ : Type} {layer : Layer} {ground known above : TypeName → TypeSet} {core : Core σ}
  {valid : σ → Prop} {n : Nat} {t a b x : TypeName}

/-! ## 1. Towers -/

/-- A layer over a core registry, as the core registry of a layer above it. -/
def Layer.over (layer : Layer) (core : Core σ) : Core (World σ Watch) where
  ancestors t world := layer.query core (.ancestors t) world
  isEmpty := layer.index.isEmpty && core.isEmpty
  extent := layer.index.extent + core.extent

/-- Layers with the same namespace and index, one above the other over a core registry.  The order
in which supertypes are taken may be another one on each floor; the floors are counted from the
ground. -/
structure Tower (σ : Type) where
  layer : Layer
  order : Nat → Arrangement
  core : Core σ

namespace Tower

/-- The state of a tower: a memo and a listener for each floor, over the state of the core
registry. -/
def State (σ : Type) : Nat → Type
  | 0 => σ
  | height + 1 => World (State σ height) Watch

/-- A tower in which no question was asked.  Its listeners keep a log. -/
def fresh (state : σ) : (height : Nat) → State σ height
  | 0 => state
  | height + 1 => ⟨.empty, fresh state height, { hooks := [] }⟩

/-- The layer of a floor. -/
def floor (tower : Tower σ) (height : Nat) : Layer := tower.layer.rearranged (tower.order height)

/-- The registry on top of a tower of the given height. -/
def top (tower : Tower σ) : (height : Nat) → Core (State σ height)
  | 0 => tower.core
  | height + 1 => (tower.floor height).over (tower.top height)

/-- Asks one of the registries of a tower, which is `depth` floors below the one on top. -/
def ask (tower : Tower σ) (question : Question) :
    (height : Nat) → (depth : Fin height) → State σ height → Outcome × State σ height
  | height + 1, ⟨0, _⟩, world => (tower.floor height).query (tower.top height) question world
  | height + 1, ⟨depth + 1, h⟩, world =>
    let (outcome, below) :=
      tower.ask question height ⟨depth, Nat.lt_of_succ_lt_succ h⟩ world.core
    (outcome, { world with core := below })

/-- What a tower becomes by questions to any of its registries, of which the first one comes
first. -/
def after (tower : Tower σ) {height : Nat} (history : List (Fin height × Question))
    (state : State σ height) : State σ height :=
  history.foldl (fun state asked => (tower.ask asked.2 height asked.1 state).2) state

/-- The log of one of the registries, which is `depth` floors below the one on top. -/
def log : (height : Nat) → (depth : Fin height) → State σ height → List Note
  | _ + 1, ⟨0, _⟩, world => world.listener.log
  | height + 1, ⟨depth + 1, h⟩, world =>
    log height ⟨depth, Nat.lt_of_succ_lt_succ h⟩ world.core

/-- The tower with the turns of its queries reckoned for core registry answers of the given
extent. -/
def reckoned (tower : Tower σ) (extent : Nat) : Tower σ :=
  { tower with core := { tower.core with extent := extent } }

end Tower

/-! ## 2. A layer over its own answers -/

/-- `above` is what the layer answers over a core registry that answers `known`. -/
def Layer.Closes (layer : Layer) (known above : TypeName → TypeSet) : Prop :=
  ∀ t, (Question.ancestors t).Answers layer known (fun _ => none) (above t)

/-- Where finitely many types can be reached, a type has its set. -/
theorem exists_denotes (hfinite : {x | (layer.hierarchy known).Reaches t x}.Finite) :
    ∃ set, (layer.hierarchy known).Denotes set t := by
  refine ⟨.ofNames (hfinite.toFinset.toList.filter layer.space.contains), fun x => ?_⟩
  rw [TypeSet.mem_ofNames, List.mem_filter, Finset.mem_toList, Set.Finite.mem_toFinset,
    Hierarchy.inherits_iff fun _ => rfl]
  exact and_comm

theorem exists_closes (hfinite : ∀ t, {x | (layer.hierarchy known).Reaches t x}.Finite) :
    ∃ above, layer.Closes known above := by
  refine Classical.axiomOfChoice (r := fun t set =>
    (Question.ancestors t).Answers layer known (fun _ => none) set) fun t => ?_
  by_cases hat : layer.AnswersAtOnce known t
  · exact ⟨known t, fun _ => rfl, fun hn => absurd hat hn⟩
  · obtain ⟨set, hset⟩ := exists_denotes (hfinite t)
    exact ⟨set, fun h => absurd h hat, fun _ => hset⟩

namespace Layer.Closes

/-- Of a core type a layer knows the type itself at least. -/
theorem ne_empty (h : layer.Closes known above) (ht : layer.space.contains t = true) :
    above t ≠ ∅ := by
  by_cases hat : layer.AnswersAtOnce known t
  · rw [(h t).1 hat]
    exact hat.2
  · exact TypeSet.ne_empty_iff.mpr ⟨t, ((h t).2 hat t).mpr (.self rfl ht)⟩

/-- What the core registry leads to, the layer does too. -/
theorem leads (h : layer.Closes known above) (hab : (layer.hierarchy known).Leads a b) :
    (layer.hierarchy above).Leads a b := by
  rcases leads_cases hab with hb | ⟨hnone, ha, hb⟩
  · exact leads_of_declared hb
  · refine leads_of_known ha hnone ?_
    rw [(h a).1 ⟨ha, TypeSet.ne_empty_iff.mpr ⟨b, hb⟩⟩]
    exact hb

/-- A step over the answers of the layer is one over those of the core registry, or stays where it
is. -/
theorem leads_or_eq (h : layer.Closes known above) (hab : (layer.hierarchy above).Leads a b) :
    (layer.hierarchy known).Leads a b ∨ b = a := by
  rcases leads_cases hab with hb | ⟨hnone, ha, hb⟩
  · exact .inl (leads_of_declared hb)
  · by_cases hat : layer.AnswersAtOnce known a
    · rw [(h a).1 hat] at hb
      exact .inl (leads_of_known ha hnone hb)
    · -- The core registry knows nothing of `a`, so an ascent ends where it begins.
      obtain ⟨_, hreach⟩ := (Hierarchy.inherits_iff fun _ => rfl).mp (((h a).2 hat b).mp hb)
      rcases Relation.ReflTransGen.cases_head hreach with rfl | ⟨c, hac, _⟩
      · exact .inr rfl
      · rcases leads_cases hac with hc | ⟨_, _, hc⟩
        · simp [TypeTable.getD, hnone] at hc
        · exact absurd ⟨ha, TypeSet.ne_empty_iff.mpr ⟨c, hc⟩⟩ hat

/-- **The answers of a layer lead to the same types as those of its core registry.** -/
theorem reaches_iff (h : layer.Closes known above) :
    (layer.hierarchy above).Reaches a b ↔ (layer.hierarchy known).Reaches a b := by
  constructor
  · intro hreach
    induction hreach with
    | refl => exact .refl
    | tail _ hbc ih =>
      rcases h.leads_or_eq hbc with hbc | rfl
      · exact ih.tail hbc
      · exact ih
  · exact Relation.ReflTransGen.mono (fun _ _ => h.leads) _ _

/-- **A layer over its own answers answers the same again.** -/
theorem again (h : layer.Closes known above) : layer.Closes above above := by
  intro t
  refine ⟨fun _ => rfl, fun hat x => ?_⟩
  have hout : ¬ layer.space.contains t = true := fun ht => hat ⟨ht, h.ne_empty ht⟩
  have hwalk : ¬ layer.AnswersAtOnce known t := fun hk => hout hk.1
  rw [(h t).2 hwalk x, Hierarchy.inherits_iff fun _ => rfl, Hierarchy.inherits_iff fun _ => rfl,
    h.reaches_iff]
  rfl

theorem reachesFew_iff (h : layer.Closes known above) :
    (layer.hierarchy above).ReachesFew n t ↔ (layer.hierarchy known).ReachesFew n t := by
  simp only [Hierarchy.ReachesFew, h.reaches_iff]

end Layer.Closes

/-! ## 3. One floor -/

/-- The memo is right, the listener keeps a log and does nothing else, and it has heard of a type as
unknown only if the core registry knows nothing of it. -/
structure World.Upright (layer : Layer) (known : TypeName → TypeSet) (valid : σ → Prop)
    (world : World σ Watch) : Prop where
  memo : world.memo.Sound (layer.hierarchy known)
  hooks : world.listener.hooks = []
  lost : world.listener.lost = none
  unknown : ∀ u, .event ⟨.coreUnknown, u⟩ ∈ world.listener.log →
    layer.space.contains u = true ∧ known u = ∅
  core : valid world.core

/-- **A floor stays upright**, and answers what can be reached from it. -/
theorem World.Upright.query {world : World σ Watch} (question : Question)
    (hcore : core.SettledOn ((layer.hierarchy known).ReachesFew n) valid known)
    (hn : n ≤ layer.index.extent + core.extent)
    (hfew : (layer.hierarchy known).ReachesFew n question.activation.asked)
    (h : world.Upright layer known valid) :
    (∃ set, (layer.query core question world).1 = .ok set ∧
      question.Answers layer known (fun _ => none) set) ∧
      (layer.query core question world).2.Upright layer known valid := by
  obtain ⟨memo, state, hooks, log, lost⟩ := world
  obtain ⟨hmemo, rfl, rfl, hunknown, hstate⟩ := h
  obtain ⟨set, final, hquery, hset, hgood, hheard⟩ :=
    query_local hcore hn hfew hmemo hstate log
  rw [hquery]
  refine ⟨⟨set, rfl, hset⟩, hgood.memo, rfl, rfl, fun u hu => ?_, hgood.core⟩
  rcases List.mem_append.mp hu with hnew | hold
  · obtain ⟨e, he, hevent⟩ := List.mem_map.mp hnew
    cases hevent
    exact hheard u he
  · exact hunknown u hold

theorem World.upright_fresh {state : σ} (hstate : valid state) :
    World.Upright layer known valid ⟨.empty, state, { hooks := [] }⟩ :=
  ⟨Memo.sound_empty, rfl, rfl, fun _ hu => absurd hu List.not_mem_nil, hstate⟩

/-- **What a floor answers the next one may rely on**, for the types that reach few others. -/
theorem over_settledOn
    (hcore : core.SettledOn ((layer.hierarchy known).ReachesFew n) valid known)
    (hn : n ≤ layer.index.extent + core.extent) (h : layer.Closes known above) :
    (layer.over core).SettledOn ((layer.hierarchy known).ReachesFew n)
      (World.Upright layer known valid) above := by
  intro t world ht hworld
  obtain ⟨⟨set, hset, hanswers⟩, hworld'⟩ := hworld.query (.ancestors t) hcore hn ht
  refine ⟨?_, hworld'⟩
  exact hset.trans (congrArg _ (hanswers.unique (h t)))

/-! ## 4. All floors -/

namespace Tower

variable {tower : Tower σ} {height : Nat}

/-- What is answered on top of a tower of the given height. -/
def knownOn (ground above : TypeName → TypeSet) : (height : Nat) → TypeName → TypeSet
  | 0 => ground
  | _ + 1 => above

/-- All floors are upright. -/
def Upright (tower : Tower σ) (ground above : TypeName → TypeSet) (valid : σ → Prop) :
    (height : Nat) → State σ height → Prop
  | 0, state => valid state
  | height + 1, world =>
    World.Upright (tower.floor height) (knownOn ground above height)
      (tower.Upright ground above valid height) world

/-- Whatever it stands on, the next floor answers the same. -/
theorem closes_floor (h : tower.layer.Closes ground above) :
    ∀ height, (tower.floor height).Closes (knownOn ground above height) above
  | 0 => h
  | _ + 1 => h.again

theorem reachesFew_floor (h : tower.layer.Closes ground above) (height : Nat) :
    ((tower.floor height).hierarchy (knownOn ground above height)).ReachesFew n t ↔
      (tower.layer.hierarchy ground).ReachesFew n t := by
  cases height with
  | zero => exact Iff.rfl
  | succ height => exact h.reachesFew_iff

theorem extent_top (tower : Tower σ) : ∀ height,
    tower.core.extent ≤ (tower.top height).extent
  | 0 => Nat.le_refl _
  | height + 1 => Nat.le_trans (tower.extent_top height) (Nat.le_add_left _ _)

theorem le_extent_floor (hn : n ≤ tower.layer.index.extent + tower.core.extent) (height : Nat) :
    n ≤ (tower.floor height).index.extent + (tower.top height).extent :=
  Nat.le_trans hn (Nat.add_le_add_left (tower.extent_top height) _)

/-- **What the topmost registry answers**, by induction on the floors below it. -/
theorem top_settledOn (hcore : tower.core.Settled valid ground)
    (hn : n ≤ tower.layer.index.extent + tower.core.extent)
    (h : tower.layer.Closes ground above) : ∀ height,
      (tower.top height).SettledOn ((tower.layer.hierarchy ground).ReachesFew n)
        (tower.Upright ground above valid height) (knownOn ground above height)
  | 0 => fun t s _ hs => hcore t s hs
  | height + 1 => by
    have hbelow := (top_settledOn hcore hn h height).mono
      fun t ht => (reachesFew_floor h height).mp ht
    have hover := over_settledOn hbelow (le_extent_floor hn height) (closes_floor h height)
    exact hover.mono fun t ht => (reachesFew_floor h height).mpr ht

/-- **A question to any floor leaves the tower upright**, and is answered as by the lowest one. -/
theorem ask_upright (hcore : tower.core.Settled valid ground)
    (hn : n ≤ tower.layer.index.extent + tower.core.extent)
    (h : tower.layer.Closes ground above) (question : Question)
    (hfew : (tower.layer.hierarchy ground).ReachesFew n question.activation.asked) :
    ∀ (height : Nat) (depth : Fin height) {state : State σ height},
      tower.Upright ground above valid height state →
        (∀ t, question = .ancestors t →
          (tower.ask question height depth state).1 = .ok (above t)) ∧
        tower.Upright ground above valid height (tower.ask question height depth state).2
  | height + 1, ⟨0, _⟩, world, hworld => by
    have hbelow := (top_settledOn hcore hn h height).mono
      fun t ht => (reachesFew_floor h height).mp ht
    obtain ⟨⟨set, hset, hanswers⟩, hworld'⟩ := World.Upright.query question hbelow
      (le_extent_floor hn height) ((reachesFew_floor h height).mpr hfew) hworld
    refine ⟨?_, hworld'⟩
    rintro t rfl
    exact hset.trans (congrArg _ (hanswers.unique (closes_floor h height t)))
  | height + 1, ⟨depth + 1, hdepth⟩, world, hworld => by
    obtain ⟨hanswers, hbelow⟩ := ask_upright hcore hn h question hfew height
      ⟨depth, Nat.lt_of_succ_lt_succ hdepth⟩ hworld.core
    exact ⟨hanswers, hworld.memo, hworld.hooks, hworld.lost, hworld.unknown, hbelow⟩

theorem after_upright (hcore : tower.core.Settled valid ground)
    (hn : n ≤ tower.layer.index.extent + tower.core.extent)
    (h : tower.layer.Closes ground above) :
    ∀ (history : List (Fin height × Question)) {state : State σ height},
      (∀ u ∈ history.map (·.2.activation.asked),
        (tower.layer.hierarchy ground).ReachesFew n u) →
      tower.Upright ground above valid height state →
        tower.Upright ground above valid height (tower.after history state)
  | [], _, _, hstate => hstate
  | (depth, question) :: history, _, hfew, hstate => by
    obtain ⟨hfirst, hrest⟩ := List.forall_mem_cons.mp hfew
    have hstate' := (ask_upright hcore hn h question hfirst height depth hstate).2
    exact after_upright hcore hn h history hrest hstate'

theorem upright_fresh {state : σ} (hstate : valid state) : ∀ height,
    tower.Upright ground above valid height (fresh state height)
  | 0 => hstate
  | height + 1 => World.upright_fresh (upright_fresh hstate height)

/-- No floor but the lowest one ever told of an unknown type. -/
theorem Upright.log_unknown (h : tower.layer.Closes ground above) :
    ∀ (height : Nat) (depth : Fin height) {state : State σ height},
      tower.Upright ground above valid height state → depth.val + 1 < height →
        ∀ u, .event ⟨.coreUnknown, u⟩ ∉ log height depth state
  | height + 1, ⟨0, _⟩, world, hworld => by
    intro hlow u hu
    obtain ⟨height, rfl⟩ := Nat.exists_eq_add_one_of_ne_zero (show height ≠ 0 by omega)
    obtain ⟨hc, hempty⟩ := hworld.unknown u hu
    exact h.ne_empty hc hempty
  | height + 1, ⟨depth + 1, hdepth⟩, world, hworld => fun hlow =>
    Upright.log_unknown h height ⟨depth, Nat.lt_of_succ_lt_succ hdepth⟩ hworld.core
      (Nat.lt_of_succ_lt_succ hlow)

end Tower

/-! ## 5. Agreement -/

/-- The turns that a layer reckons for a core registry of the given extent are enough for queries
about the types `asked`. -/
def Layer.Suffices (layer : Layer) (known : TypeName → TypeSet) (extent : Nat)
    (asked : List TypeName) : Prop :=
  ∀ t ∈ asked, (layer.hierarchy known).ReachesFew (layer.index.extent + extent) t

/-- From some extent on there are enough turns. -/
theorem exists_suffices (hfinite : ∀ t, {x | (layer.hierarchy known).Reaches t x}.Finite)
    (asked : List TypeName) :
    ∃ least, ∀ extent ≥ least, layer.Suffices known extent asked := by
  induction asked with
  | nil => exact ⟨0, fun _ _ t ht => absurd ht List.not_mem_nil⟩
  | cons u asked ih =>
    obtain ⟨least, hleast⟩ := ih
    obtain ⟨m, hm⟩ := Hierarchy.exists_reachesFew (hfinite u)
    refine ⟨max m least, fun extent hle => List.forall_mem_cons.mpr ⟨?_, ?_⟩⟩
    · exact hm.mono (by omega)
    · exact hleast extent (by omega)

/-- The extent of a registry is enough for any query. -/
theorem Registry.suffices (core : Registry) (layer : Layer) (asked : List TypeName) :
    layer.Suffices core.answer core.toCore.extent asked := by
  intro t _
  obtain ⟨names, hlen, hspans⟩ := core.answers_answer.spans layer
  exact ⟨names, hlen, fun x hx => hspans.reaches hx⟩

/-- **A registry that is stacked on itself answers as before**: on every floor of a tower of any
height, and after any history of questions to its floors, the ancestors of a type are what one layer
answers over the core registry, and no floor but the lowest one ever tells of an unknown type.  The
core registry need not be finite, only what is above each of its types; any history gets by with the
turns for some extent, and whenever it does, the answers are these. -/
theorem tower_agrees (tower : Tower σ) (hcore : tower.core.Settled valid known) (state : σ)
    (hstate : valid state)
    (hfinite : ∀ t, {x | (tower.layer.hierarchy known).Reaches t x}.Finite) (height : Nat)
    (history : List (Fin height × Question)) (t : TypeName) :
    let asked := t :: history.map (·.2.activation.asked)
    ∃ set, (Question.ancestors t).Answers tower.layer known (fun _ => none) set ∧
      (∃ least, ∀ extent ≥ least, tower.layer.Suffices known extent asked) ∧
      ∀ extent, tower.layer.Suffices known extent asked →
        let tower' := tower.reckoned extent
        let after := tower'.after history (Tower.fresh state height)
        (∀ depth, (tower'.ask (.ancestors t) height depth after).1 = .ok set) ∧
        ∀ depth : Fin height, depth.val + 1 < height →
          ∀ u, .event ⟨.coreUnknown, u⟩ ∉ Tower.log height depth after := by
  intro asked
  obtain ⟨above, habove⟩ := exists_closes hfinite
  refine ⟨above t, habove t, exists_suffices hfinite asked, fun extent henough => ?_⟩
  intro tower' after
  obtain ⟨ht, hhistory⟩ := List.forall_mem_cons.mp henough
  have hcore' : tower'.core.Settled valid known := hcore
  have habove' : tower'.layer.Closes known above := habove
  have hafter := Tower.after_upright hcore' (Nat.le_refl _) habove' history hhistory
    (Tower.upright_fresh hstate height)
  constructor
  · intro depth
    have hask := Tower.ask_upright hcore' (Nat.le_refl _) habove' (.ancestors t) ht height depth
      hafter
    exact hask.1 t rfl
  · exact fun depth hdepth => hafter.log_unknown habove' height depth hdepth

/-- Two floors, of which the upper one takes supertypes in descending order.  To the lower one
`org/gradle/D` is unknown. -/
theorem tower_agrees_unknown :
    let layer : Layer := ⟨.standard, .ofEntries [("a", .ofNames ["b", "org/gradle/C"]),
      ("b", .ofNames ["a"])], .ascending⟩
    let core : Registry := .table (.ofEntries [("org/gradle/C", .ofNames ["org/gradle/D"])])
    let order : Nat → Arrangement
      | 0 => .ascending
      | _ + 1 => ⟨fun _ set => set.toList.reverse, fun _ _ => List.reverse_perm _⟩
    let tower : Tower core.State := ⟨layer, order, core.toCore⟩
    let after := tower.after [(0, .ancestors "b"), (1, .closure "org/gradle/D")]
      (Tower.fresh core.fresh 2)
    ∃ set, (tower.ask (.ancestors "a") 2 0 after).1 = .ok set ∧
      (tower.ask (.ancestors "a") 2 1 after).1 = .ok set ∧ "org/gradle/D" ∈ set ∧
      .event ⟨.coreUnknown, "org/gradle/D"⟩ ∉ Tower.log 2 0 after := by
  intro layer core order tower after
  have hfew := core.suffices layer
  have hcore : tower.core.Settled (fun _ => True) core.answer := fun _ _ _ => ⟨rfl, trivial⟩
  obtain ⟨set, hset, _, hagree⟩ := tower_agrees tower hcore core.fresh trivial
    (fun t => (hfew [t] t (by simp)).finite) 2
    [(0, .ancestors "b"), (1, .closure "org/gradle/D")] "a"
  obtain ⟨hanswers, hlog⟩ := hagree core.toCore.extent (hfew _)
  have hout : ¬ layer.AnswersAtOnce core.answer "a" := fun hat => absurd hat.1 (by decide +kernel)
  have hC : (layer.hierarchy core.answer).Leads "a" "org/gradle/C" := ⟨rfl, by decide +kernel⟩
  have hD : (layer.hierarchy core.answer).Leads "org/gradle/C" "org/gradle/D" :=
    ⟨rfl, by decide +kernel⟩
  refine ⟨set, hanswers 0, hanswers 1, ?_, hlog 0 (by decide) _⟩
  exact (hset.2 hout _).mpr (.above hC (.above hD (.self rfl (by decide +kernel))))

end Ancestry.Closure
