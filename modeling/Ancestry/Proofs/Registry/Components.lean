import Ancestry.Proofs.Query.Past
import Ancestry.Proofs.Registry.AnyMemo

/-!
# The components that a walk closes

A walk beside a memo that may hold anything closes one component after the other.  Here it is shown
that they are the strongly connected components of the graph around the memo
(`Layer.Components`), each of them closed after those above it, so that a type is stored when its
direct supertypes are in the memo or are about to be stored with it (`closure_components`).

Three facts about the components are enough for that: no type is in two of them, the types of one
are on cycles with each other, and a step up from one of them leads to an earlier one, stays in it
or comes upon the memo.  The first comes from the past of the query, where the types of the
components are those that were entered; the others come from what a walk has established when it
closes a component.
-/

namespace Ancestry.Closure

open Scene Stretch

variable {σ : Type} {layer : Layer} {known : TypeName → TypeSet} {given : TypeName → Option TypeSet}
  {kept : TypeName → Prop} {question : Question} {core : Core σ} {valid : σ → Prop} {memo : Memo}
  {past : List Query} {q : Query} {s s' : Scene σ} {t u v : TypeName}
  {components before after : List (List TypeName)}

/-! ## 1. Components around a memo -/

/-- A step up from a type of one of the lists comes upon the memo, stays in the list or leads to an
earlier one. -/
def Layer.Upward (layer : Layer) (known : TypeName → TypeSet) (memo : Memo)
    (components : List (List TypeName)) : Prop :=
  ∀ before c after, components = before ++ c :: after →
    ∀ u ∈ c, ∀ s ∈ (layer.hierarchy known).above u, memo.Has s ∨ s ∈ c ∨ s ∈ before.flatten

/-- The lists are the strongly connected components of the part of the graph around the memo that
can be reached from `t`, each of them after those above it. -/
structure Layer.Components (layer : Layer) (known : TypeName → TypeSet) (memo : Memo)
    (t : TypeName) (components : List (List TypeName)) : Prop where
  nodup : components.flatten.Nodup
  mem_iff : ∀ u, u ∈ components.flatten ↔ layer.Around known memo t u
  nonempty : ∀ c ∈ components, c ≠ []
  onCycle : ∀ c ∈ components, ∀ u ∈ c, ∀ v,
    v ∈ c ↔ layer.Around known memo u v ∧ layer.Around known memo v u
  upward : layer.Upward known memo components

/-- An ascent around the memo does not leave the first lists. -/
theorem Layer.Upward.around (h : layer.Upward known memo (before ++ after))
    (hu : u ∈ before.flatten) (haround : layer.Around known memo u v) : v ∈ before.flatten := by
  induction haround with
  | refl => exact hu
  | @tail a b _ hab ih =>
    obtain ⟨c, hc, hac⟩ := List.mem_flatten.mp ih
    obtain ⟨first, last, rfl⟩ := List.append_of_mem hc
    have hsplit : (first ++ c :: last) ++ after = first ++ c :: (last ++ after) := by simp
    rcases h first c _ hsplit a hac b hab.1 with ⟨set, hset⟩ | hb | hb
    · exact absurd (hab.2.symm.trans hset) (by simp)
    · exact List.mem_flatten.mpr ⟨c, hc, hb⟩
    · rw [List.flatten_append]
      exact List.mem_append_left _ hb

/-- Another list comes after those above it. -/
theorem Layer.Upward.concat {c : List TypeName} (h : layer.Upward known memo components)
    (hc : ∀ u ∈ c, ∀ s ∈ (layer.hierarchy known).above u,
      memo.Has s ∨ s ∈ c ∨ s ∈ components.flatten) :
    layer.Upward known memo (components ++ [c]) := by
  intro before c' after hsplit
  rcases List.eq_nil_or_concat after with rfl | ⟨after, last, rfl⟩
  · obtain ⟨rfl, hlast⟩ := List.append_inj' hsplit rfl
    cases hlast
    exact hc
  · rw [List.concat_eq_append, ← List.cons_append, ← List.append_assoc] at hsplit
    exact h before c' after (List.append_inj' hsplit rfl).1

/-- **Lists of types on cycles, ordered from above**, are the strongly connected components. -/
theorem components_of_upward (hnodup : components.flatten.Nodup)
    (hmem : ∀ u, u ∈ components.flatten ↔ layer.Around known memo t u)
    (hnonempty : ∀ c ∈ components, c ≠ [])
    (hstrong : ∀ c ∈ components, ∀ u ∈ c, ∀ v ∈ c, layer.Around known memo u v)
    (hupward : layer.Upward known memo components) :
    layer.Components known memo t components := by
  refine ⟨hnodup, hmem, hnonempty, fun c hc u hu v => ⟨fun hv => ?_, ?_⟩, hupward⟩
  · exact ⟨hstrong c hc u hu v hv, hstrong c hc v hv u hu⟩
  · rintro ⟨huv, hvu⟩
    obtain ⟨before, after, rfl⟩ := List.append_of_mem hc
    have hsplit : before ++ c :: after = (before ++ [c]) ++ after := by simp
    have hv : v ∈ (before ++ [c]).flatten :=
      (hsplit ▸ hupward).around (by simp [hu]) huv
    rw [List.flatten_append, List.mem_append, List.flatten_singleton] at hv
    -- From an earlier list no ascent comes back.
    refine hv.resolve_left fun hearlier => ?_
    have hback : u ∈ before.flatten := hupward.around hearlier hvu
    rw [List.flatten_append, List.nodup_append] at hnodup
    exact hnodup.2.2 u hback u (by simp [hu]) rfl

/-- In the order of the components, the supertypes of a type that are not in the memo come earlier,
or with the type. -/
theorem Layer.Components.above_mem {earlier later : List TypeName}
    (h : layer.Components known memo t components)
    (hflat : components.flatten = earlier ++ u :: later) {s : TypeName}
    (hs : s ∈ (layer.hierarchy known).above u) :
    memo.Has s ∨ s ∈ earlier ∨ ∃ c ∈ components, u ∈ c ∧ s ∈ c := by
  obtain ⟨c, hc, hu⟩ := List.mem_flatten.mp (hflat ▸ List.mem_append_right _ List.mem_cons_self)
  obtain ⟨before, after, rfl⟩ := List.append_of_mem hc
  have hnodup := h.nodup
  rw [List.flatten_append, List.nodup_append] at hnodup
  have hu' : u ∉ before.flatten := fun hb => hnodup.2.2 u hb u (by simp [hu]) rfl
  rcases h.upward before c after rfl u hu s hs with hmemo | hsame | hearlier
  · exact .inl hmemo
  · exact .inr (.inr ⟨c, hc, hu, hsame⟩)
  · -- The type itself is in none of the earlier components, so they are all before it.
    refine .inr (.inl ?_)
    rw [List.flatten_append, List.append_eq_append_iff] at hflat
    rcases hflat with ⟨rest, rfl, _⟩ | ⟨rest, hbefore, hrest⟩
    · exact List.mem_append_left _ hearlier
    · cases rest with
      | nil => exact (List.append_nil earlier ▸ hbefore) ▸ hearlier
      | cons a rest =>
        obtain ⟨rfl, _⟩ := List.cons.inj hrest
        exact absurd (hbefore ▸ List.mem_append_right _ List.mem_cons_self) hu'

/-- What is in the order of a list without repetition is found in it by its members. -/
theorem filter_mem_of_sublist {names entered : List TypeName} (h : names.Sublist entered)
    (hnodup : entered.Nodup) : entered.filter (· ∈ names) = names := by
  induction h with
  | slnil => rfl
  | @cons names entered a hsub ih =>
    obtain ⟨ha, hnodup⟩ := List.nodup_cons.mp hnodup
    rw [List.filter_cons_of_neg (by simpa using fun hmem => ha (hsub.subset hmem)), ih hnodup]
  | @cons_cons names entered a hsub ih =>
    obtain ⟨ha, hnodup⟩ := List.nodup_cons.mp hnodup
    rw [List.filter_cons_of_pos (by simp)]
    refine congrArg (a :: ·) (Eq.trans (List.filter_congr fun b hb => ?_) (ih hnodup))
    have hne : b ≠ a := fun he => ha (he ▸ hb)
    simp [hne]

/-! ## 2. What the past of a walk says of its components -/

/-- The types of a component that is closed are on cycles with each other. -/
theorem Query.Good.reaches_of_closing {c : List TypeName × TypeSet}
    (h : q.Good layer known given kept question) (hc : c ∈ layer.closing q) :
    ∀ u ∈ c.1, ∀ v ∈ c.1, (layer.hierarchy known given).Reaches u v := by
  obtain ⟨phase, w⟩ := q
  by_cases hphase : phase = .scan
  · subst hphase
    obtain ⟨start, p, below, _, hw⟩ := h.phase
    have hcomponent : c.1 = p.members := (mem_closing hw.frames_eq hc).trans hw.component_eq
    have hdown : ∀ v ∈ p.members, (layer.hierarchy known given).Reaches p.root v := fun v hv =>
      (Stretch.mem_members.mp hv).elim (hw.keeps.1.down v) fun he => he ▸ .refl
    have hup : ∀ u ∈ p.members, (layer.hierarchy known given).Reaches u p.root := fun u hu =>
      (Stretch.mem_members.mp hu).elim (hw.keeps.1.up u) fun he => he ▸ .refl
    rw [hcomponent]
    exact fun u hu v hv => (hup u hu).trans (hdown v hv)
  · rw [closing_eq_nil hphase] at hc
    exact absurd hc List.not_mem_nil

namespace Scene

theorem Moves.leads (hmove : s.Moves layer core s') : (layer.step s.query).Leads s'.query := by
  cases hmove with
  | silent hstep => exact hstep ▸ rfl
  | core hstep hanswer => exact hstep ▸ ⟨_, rfl⟩
  | hit hstep hset => exact hstep ▸ .inr ⟨_, rfl⟩
  | miss hstep hset => exact hstep ▸ .inl rfl
  | store hstep => exact hstep ▸ rfl

/-- A move stores what the query stores with its step. -/
theorem Moves.storing (hmove : s.Moves layer core s') :
    s'.stored.reverse = s.stored.reverse ++ s.query.storing ∧
      ∀ u, s'.memo.Has u ↔ s.memo.Has u ∨ u ∈ s.query.storing.map (·.1) := by
  have htells := step_tells layer s.query
  have hnothing : s.query.storing = [] → s'.stored = s.stored →
      (∀ u, s'.memo.Has u ↔ s.memo.Has u) →
      s'.stored.reverse = s.stored.reverse ++ s.query.storing ∧
        ∀ u, s'.memo.Has u ↔ s.memo.Has u ∨ u ∈ s.query.storing.map (·.1) :=
    fun hq hstored hmemo => by simp [hq, hstored, hmemo]
  cases hmove with
  | silent hstep => exact hnothing (by rwa [hstep] at htells) rfl fun _ => .rfl
  | core hstep hanswer => exact hnothing (by rwa [hstep] at htells) rfl fun _ => .rfl
  | hit hstep hset =>
    exact hnothing (by rwa [hstep] at htells) rfl fun _ => Memo.has_get _
  | miss hstep hset =>
    exact hnothing (by rwa [hstep] at htells) rfl fun _ => Memo.has_get _
  | @store t set q hstep =>
    have hq : s.query.storing = [(t, set)] := by rwa [hstep] at htells
    simp [hq, Memo.has_store_iff]

/-- What the past of a walk beside the memo `memo` says of a scene. -/
structure Condensed (layer : Layer) (known : TypeName → TypeSet) (valid : σ → Prop)
    (question : Question) (memo : Memo) (past : List Query) (s : Scene σ) : Prop where
  good : s.Good layer known memo.peek? valid question
  recorded : s.query.Recorded layer past
  stored : s.stored.reverse = storings past
  has : ∀ u, s.memo.Has u ↔ memo.Has u ∨ u ∈ (storings past).map (·.1)
  strong : ∀ c ∈ (layer.closings past).map (·.1), ∀ u ∈ c, ∀ v ∈ c,
    (layer.hierarchy known memo.peek?).Reaches u v
  upward : layer.Upward known memo ((layer.closings past).map (·.1))

/-- Before the first step there is nothing to be said. -/
theorem condensed_start (memo : Memo) (t : TypeName) {state : σ} (hstate : valid state) :
    Condensed layer known valid (.closure t) memo [] (start (.closure t) memo state) := by
  refine ⟨good_start (.closure t) memo hstate, recorded_begin ⟨rfl, rfl⟩ rfl, rfl, ?_, ?_, ?_⟩
  · simp [storings, start]
  · simp [Layer.closings]
  · intro before c after hsplit
    simp [Layer.closings] at hsplit

/-- **A component is closed after those above it**: when it is closed, the supertypes of its types
are finished or in the memo. -/
theorem Condensed.moves (hcore : core.Settled valid known)
    (h : s.Condensed layer known valid question memo past) (hmove : s.Moves layer core s') :
    s'.Condensed layer known valid question memo (past ++ [s.query]) := by
  have hgood := h.good.moves hcore hmove
  have hrecorded := h.recorded.next hmove.leads
  obtain ⟨hstored, hhas⟩ := hmove.storing
  have hhas' : ∀ u, s'.memo.Has u ↔
      memo.Has u ∨ u ∈ (storings (past ++ [s.query])).map (·.1) := by
    intro u
    rw [hhas, h.has, storings_append, List.map_append, List.mem_append, or_assoc]
  refine ⟨hgood, hrecorded, ?_, hhas', ?_, ?_⟩
  · rw [hstored, h.stored, storings_append]
  · intro c hc
    rw [closings_append, List.map_append, List.mem_append] at hc
    rcases hc with hc | hc
    · exact h.strong c hc
    · obtain ⟨closing, hclosing, rfl⟩ := List.mem_map.mp hc
      exact h.good.query.reaches_of_closing hclosing
  · -- The types of all components, this one included, are finished.
    have habove : ∀ u ∈ closed (layer.closings (past ++ [s.query])),
        ∀ x ∈ (layer.hierarchy known).above u,
          memo.Has x ∨ x ∈ closed (layer.closings (past ++ [s.query])) := by
      intro u hu x hx
      rcases hgood.query.finished.above u ((hrecorded.finished u).mpr hu) x hx with hx | hx
      · exact .inr ((hrecorded.finished x).mp hx)
      · refine ((hhas' x).mp hx).imp_right fun hx => ?_
        rw [← hrecorded.owed]
        exact List.mem_append_left _ hx
    rcases closing_eq layer s.query with hq | ⟨c', hq⟩
    · rw [closings_append, hq, List.append_nil]
      exact h.upward
    · rw [closings_append, hq, closed_append] at habove
      rw [closings_append, hq, List.map_append]
      refine h.upward.concat fun u hu x hx => ?_
      have hu' : u ∈ closed (layer.closings past) ++ closed [c'] :=
        List.mem_append_right _ (by simpa [closed] using hu)
      refine (habove u hu' x hx).imp_right fun hx => ?_
      rw [flatten_closings]
      exact (List.mem_append.mp hx).symm.imp_left fun hx => by simpa [closed] using hx

/-- Each component lists its types in the reverse of the order in which they were entered. -/
theorem Condensed.order {c : List TypeName} (h : s.Condensed layer known valid question memo past)
    (hc : c ∈ (layer.closings past).map (·.1)) :
    c = ((entries past).filter (· ∈ c)).reverse := by
  obtain ⟨closing, hclosing, rfl⟩ := List.mem_map.mp hc
  have hsub := (h.recorded.components closing hclosing).2
  have hfilter := filter_mem_of_sublist hsub h.recorded.nodup
  simp only [List.mem_reverse] at hfilter
  rw [hfilter, List.reverse_reverse]

/-- When the answer is there, every type that was entered is in a component and stored. -/
theorem Condensed.settled {set : TypeSet} (h : s.Condensed layer known valid question memo past)
    (hphase : s.query.phase = .answer set) :
    (storings past).map (·.1) = closed (layer.closings past) ∧
      (entries past).Perm (closed (layer.closings past)) := by
  have howed : s.query.owed = [] := by simp [Query.owed, hphase]
  have hstack : s.query.walk.stack = [] := by
    have hfits := h.recorded.fits
    rw [hphase] at hfits
    exact hfits.1.choose_spec.stack_eq
  have hstored := h.recorded.owed
  have hperm := h.recorded.perm
  rw [howed, List.append_nil] at hstored
  rw [hstack, List.append_nil] at hperm
  exact ⟨hstored, hperm.symm⟩

/-- **When the answer is there, the components are those of the graph around the memo.** -/
theorem Condensed.complete {set : TypeSet} (h : s.Condensed layer known valid question memo past)
    (hphase : s.query.phase = .answer set) (hnew : memo.peek? t = none)
    (haround : ∀ u, s.memo.Has u ↔ memo.Has u ∨ layer.Around known memo t u) :
    layer.Components known memo t ((layer.closings past).map (·.1)) := by
  obtain ⟨hstored, hperm⟩ := h.settled hphase
  have hunset : ∀ u ∈ closed (layer.closings past), memo.peek? u = none := fun u hu =>
    h.good.query.finished.unset u ((h.recorded.finished u).mpr hu)
  have hhas : ∀ u, s.memo.Has u ↔ memo.Has u ∨ u ∈ closed (layer.closings past) :=
    fun u => hstored ▸ h.has u
  have hnot : ∀ {u}, memo.peek? u = none → ¬ memo.Has u := by
    rintro u hu ⟨set, hset⟩
    exact absurd (hu.symm.trans hset) (by simp)
  have hmem : ∀ u, u ∈ closed (layer.closings past) ↔ layer.Around known memo t u := by
    refine fun u => ⟨fun hu => ?_, fun hu => ?_⟩
    · exact ((haround u).mp ((hhas u).mpr (.inr hu))).resolve_left (hnot (hunset u hu))
    · exact ((hhas u).mp ((haround u).mpr (.inr hu))).resolve_left
        (hnot ((around_iff hnew).mp hu).2)
  rw [← flatten_closings] at hperm hmem hunset
  refine components_of_upward (hperm.nodup_iff.mp h.recorded.nodup) hmem (fun c hc => ?_)
    (fun c hc u hu v hv => ?_) h.upward
  · obtain ⟨closing, hclosing, rfl⟩ := List.mem_map.mp hc
    exact (h.recorded.components closing hclosing).1
  · have hin : ∀ x ∈ c, memo.peek? x = none :=
      fun x hx => hunset x (List.mem_flatten.mpr ⟨c, hc, hx⟩)
    exact (around_iff (hin u hu)).mpr ⟨h.strong c hc u hu v hv, hin v hv⟩

end Scene

/-! ## 3. The theorem -/

/-- **The components that a walk closes** beside any memo are the strongly connected components of
the graph around the memo, as far as it can be reached from the type that was asked about, and each
is closed after those above it.  The types are stored in the order of the components, so that the
direct supertypes of a type that is stored are in the memo already or belong to its component.
Within a component the order is the reverse of that in which the types were entered, and the type
by which the walk came into the component is the last one. -/
theorem closure_components (layer : Layer) (core : Registry) {state : core.State}
    (hsound : core.Sound state) (hpatient : core.Patient state) (memo : Memo) (log : List Note)
    {t : TypeName} (hnew : memo.peek? t = none) {turns : Nat}
    (hturns : layer.bound core.toCore ≤ turns) :
    let session : Session core.State Watch :=
      ⟨(Question.closure t).activation, [], ⟨memo, state, { hooks := [], log := log }⟩⟩
    let steps := session.steps layer core.toCore .hooks turns
    let components := (layer.closings steps).map (·.1)
    let writes := session.writes layer core.toCore .hooks turns
    (∃ set world, session.run layer core.toCore .hooks turns = .ended (.ok set) world) ∧
      layer.Components core.answer memo t components ∧
      writes.map (·.1) = components.flatten ∧
      (∀ earlier u set later, writes = earlier ++ (u, set) :: later →
        ∀ s ∈ (layer.hierarchy core.answer).above u,
          memo.Has s ∨ s ∈ earlier.map (·.1) ∨ ∃ c ∈ components, u ∈ c ∧ s ∈ c) ∧
      (entries steps).Perm components.flatten ∧
      ∀ c ∈ components, c = ((entries steps).filter (· ∈ c)).reverse := by
  intro session steps components writes
  have hstate := And.intro hsound hpatient
  obtain ⟨names, hlen, hspans⟩ := core.answers_answer.spans layer
  have hgood : (start (.closure t) memo state).Good layer core.answer memo.peek?
      (fun s => core.Sound s ∧ core.Patient s) (.closure t) := good_start (.closure t) memo hstate
  have hcost := turnsLeft_start_le hlen (.closure t)
  obtain ⟨n, set, final, past, hends, hpasses, hrun, hwritten, hsteps⟩ :=
    exists_passes (hspans.covers (.closure t)) core.settled t log turns hgood
      (Nat.le_trans hcost hturns)
  have hfinal : final.Condensed layer core.answer (fun s => core.Sound s ∧ core.Patient s)
      (.closure t) memo past :=
    hpasses.keeps (fun _ _ _ hs hmove => hs.moves core.settled hmove)
      (condensed_start memo t hstate)
  have hanswer : layer.step final.query = .answer set :=
    (hends.keeps (P := fun _ => True) (fun _ _ _ _ => trivial) trivial).2
  have hphase := hfinal.recorded.answered hanswer
  -- The query that gives the answer enters and closes nothing.
  have hclosings : layer.closings steps = layer.closings past := by
    have hnone : layer.closing final.query = [] := closing_eq_nil (by simp [hphase])
    exact (congrArg layer.closings hsteps).trans (by simp [hnone])
  have hentries : entries steps = entries past := by
    have hnone : final.query.coming = [] := by simp [Query.coming, hphase]
    exact (congrArg entries hsteps).trans (by simp [hnone])
  have hwritten : writes = storings past := hwritten.trans hfinal.stored
  have hsame : components = (layer.closings past).map (·.1) := congrArg _ hclosings
  have hcomponents : layer.Components core.answer memo t components := by
    rw [hsame]
    exact hfinal.complete hphase hnew fun u => has_around core.settled hstate hnew hends
  obtain ⟨hstored, hperm⟩ := hfinal.settled hphase
  have hflat : components.flatten = closed (layer.closings past) := by
    rw [hsame, flatten_closings]
  rw [← hwritten, ← hflat] at hstored
  rw [← hentries, ← hflat] at hperm
  refine ⟨⟨set, _, hrun⟩, hcomponents, hstored, ?_, hperm, fun c hc => ?_⟩
  · rintro earlier u found later hsplit s hs
    have hnames : components.flatten = earlier.map (·.1) ++ u :: later.map (·.1) := by
      rw [← hstored, hsplit, List.map_append, List.map_cons]
    exact hcomponents.above_mem hnames hs
  · rw [hentries]
    exact hfinal.order (hsame ▸ hc)

/-- A cycle with a type below it and a cycle above it, and a type of the memo on the way from the
upper one to the lower one. -/
theorem closure_components_cycles :
    let layer : Layer := ⟨.standard, .ofEntries [("a", .ofNames ["b"]), ("b", .ofNames ["c", "d"]),
      ("c", .ofNames ["b"]), ("d", .ofNames ["e", "stored"]), ("e", .ofNames ["d"]),
      ("stored", .ofNames ["a"])], .ascending⟩
    let memo := Memo.empty.store "stored" ∅
    let core := Registry.empty
    let session : Session core.State Watch :=
      ⟨(Question.closure "a").activation, [], ⟨memo, core.fresh, { hooks := [] }⟩⟩
    let components :=
      (layer.closings (session.steps layer core.toCore .hooks (layer.bound core.toCore))).map (·.1)
    (core.Sound core.fresh ∧ core.Patient core.fresh ∧ memo.peek? "a" = none) ∧
      layer.Components core.answer memo "a" components ∧
      components = [["e", "d"], ["c", "b"], ["a"]] := by
  intro layer memo core session components
  have hnew : memo.peek? "a" = none := by decide +kernel
  obtain ⟨_, hcomponents, _⟩ :=
    closure_components layer core core.sound_fresh trivial memo [] hnew (Nat.le_refl _)
  exact ⟨⟨trivial, trivial, hnew⟩, hcomponents, by decide +kernel⟩

end Ancestry.Closure
