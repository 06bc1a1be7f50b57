import Ancestry.Proofs.Query.Past

/-!
# What a walk draws

A frame holds the supertypes of its type that are not taken yet.  Taking one of them is drawing the
pair of the type and the supertype.  No pair is drawn twice, and the first type of each pair is one
that was entered, whatever the query was told (`Layer.Runs.drawn`): entering a type brings up pairs
that were not there before, as no type is entered twice and no listing of a set has a member twice,
and every other step at most moves one pair from those to be drawn to those that are.
-/

namespace Ancestry.Closure

/-- The pairs that are still to be drawn, those of the innermost frame in front. -/
def Walk.undrawn (w : Walk) : List (TypeName × TypeName) :=
  w.frames.flatMap fun f => f.pending.map (f.type, ·)

/-- The pair that a query draws with its next step, if it draws one. -/
def Query.drawing (q : Query) : List (TypeName × TypeName) :=
  match q.phase, q.walk.frames with
  | .scan, f :: _ => (f.pending.take 1).map (f.type, ·)
  | _, _ => []

/-- The pairs that a query drew, the first one in front. -/
def drawings (past : List Query) : List (TypeName × TypeName) := past.flatMap Query.drawing

/-- A step to `q'` draws at most one of the pairs to be drawn, and `brought` are the pairs that it
adds to them. -/
structure Query.Draws (q q' : Query) (brought : List (TypeName × TypeName)) : Prop where
  undrawn : q.drawing ++ q'.walk.undrawn = brought ++ q.walk.undrawn
  nodup : brought.Nodup
  coming : ∀ p ∈ brought, p.1 ∈ q.coming

variable {layer : Layer} {past : List Query} {q q' : Query} {w w' : Walk} {f : Frame}
  {rest : List Frame} {t : TypeName} {set : TypeSet} {n : Nat}

@[simp] theorem drawings_append (q : Query) :
    drawings (past ++ [q]) = drawings past ++ q.drawing := by
  simp [drawings]

/-! ## 1. The pairs of a walk -/

namespace Walk

theorem undrawn_cons (hf : w.frames = f :: rest) :
    w.undrawn = f.pending.map (f.type, ·) ++ rest.flatMap fun f => f.pending.map (f.type, ·) := by
  rw [undrawn, hf, List.flatMap_cons]

theorem undrawn_enter (isCore : Bool) (supertypes : List TypeName) :
    (w.enter t isCore supertypes).undrawn = supertypes.map (t, ·) ++ w.undrawn := by
  simp only [undrawn, enter, List.flatMap_cons]

@[simp] theorem undrawn_lower : (w.lower t n).undrawn = w.undrawn := rfl

@[simp] theorem undrawn_collect : (w.collect set).undrawn = w.undrawn := by
  cases hf : w.frames with
  | nil => simp only [collect, hf]
  | cons f rest =>
    rw [undrawn_cons hf, collect_eq hf]
    simp only [undrawn, List.flatMap_cons]

@[simp] theorem undrawn_yield : (w.yield set n).undrawn = w.undrawn := by
  cases hf : w.frames with
  | nil => rw [yield_nil hf]
  | cons f rest => rw [yield_eq hf, undrawn_lower, undrawn_collect]

end Walk

theorem drawing_scan (hf : w.frames = f :: rest) :
    Query.drawing ⟨.scan, w⟩ = (f.pending.take 1).map (f.type, ·) := by
  simp only [Query.drawing, hf]

/-- The pair that a walk draws leaves those that are still to be drawn. -/
theorem drawing_append_undrawn (w : Walk) :
    Query.drawing ⟨.scan, w⟩ ++ w.drop.undrawn = w.undrawn := by
  cases hf : w.frames with
  | nil => simp only [Query.drawing, Walk.drop, hf, List.nil_append]
  | cons f rest =>
    have hdrop := Walk.undrawn_cons (congrArg Walk.frames (Walk.drop_eq hf))
    rw [drawing_scan hf, hdrop, Walk.undrawn_cons hf, ← List.append_assoc, ← List.map_append]
    congr 2
    cases f.pending <;> rfl

/-- A frame without supertypes has nothing to be drawn, so none is lost when it is left. -/
theorem undrawn_leave (hf : w.frames = f :: rest) (hpending : f.pending = []) :
    (Layer.leave w f).walk.undrawn = w.undrawn := by
  have htail : ({ w with frames := w.frames.tail } : Walk).undrawn = w.undrawn := by
    simp [Walk.undrawn, hf, hpending]
  unfold Layer.leave
  dsimp only
  split
  · exact Walk.undrawn_yield.trans htail
  · exact Walk.undrawn_yield.trans htail

/-! ## 2. The steps -/

/-- A step that changes nothing about the frames draws nothing. -/
theorem draws_nothing (hdrawing : q.drawing = []) (hwalk : q'.walk.undrawn = q.walk.undrawn) :
    q.Draws q' [] := by
  refine ⟨?_, .nil, fun p hp => absurd hp List.not_mem_nil⟩
  rw [hdrawing, hwalk]

theorem scan_draws (hnext : (layer.step ⟨.scan, w⟩).Leads q') : Query.Draws ⟨.scan, w⟩ q' [] := by
  have hdraws : q'.walk.undrawn = w.drop.undrawn → Query.Draws ⟨.scan, w⟩ q' [] := by
    intro hdrop
    refine ⟨?_, .nil, fun p hp => absurd hp List.not_mem_nil⟩
    rw [hdrop, drawing_append_undrawn, List.nil_append]
  simp only [Layer.step] at hnext
  split at hnext
  · exact absurd hnext not_false
  · next f rest hf =>
    split at hnext
    · next hpending =>
      obtain rfl : q' = _ := hnext
      refine draws_nothing ?_ (undrawn_leave hf hpending)
      simp [drawing_scan hf, hpending]
    · split at hnext
      · obtain rfl : q' = _ := hnext
        exact hdraws Walk.undrawn_lower
      · split at hnext
        · obtain rfl : q' = _ := hnext
          exact hdraws Walk.undrawn_collect
        · rcases hnext with rfl | ⟨set, rfl⟩
          · exact hdraws rfl
          · exact hdraws Walk.undrawn_collect

/-- **What a step draws and brings up**, whatever it is told: only entering a type brings up pairs,
and they are pairs of this type. -/
theorem step_draws (hnext : (layer.step q).Leads q') : ∃ brought, q.Draws q' brought := by
  obtain ⟨phase, w⟩ := q
  cases phase with
  | ask t =>
    simp only [Layer.step] at hnext
    split at hnext
    · obtain ⟨set, rfl⟩ := hnext
      exact ⟨[], draws_nothing rfl (by dsimp only; split <;> rfl)⟩
    · obtain rfl : q' = _ := hnext
      exact ⟨[], draws_nothing rfl rfl⟩
  | consult t =>
    rcases hnext with rfl | ⟨set, rfl⟩
    · exact ⟨[], draws_nothing rfl rfl⟩
    · exact ⟨[], draws_nothing rfl rfl⟩
  | direct t =>
    obtain ⟨set, rfl⟩ := fetch_leads hnext
    exact ⟨[], draws_nothing rfl rfl⟩
  | enter t =>
    obtain ⟨set, rfl⟩ := fetch_leads hnext
    have hlist : (layer.arrangement.list t set).Nodup :=
      (layer.arrangement.perm t set).nodup_iff.mpr (TypeSet.nodup_toList set)
    have hpairs : ((layer.arrangement.list t set).map (t, ·)).Nodup :=
      List.pairwise_map.mpr (hlist.imp fun hne he => hne (Prod.mk.inj he).2)
    refine ⟨_, Walk.undrawn_enter _ _, hpairs, ?_⟩
    intro p hp
    obtain ⟨s, _, rfl⟩ := List.mem_map.mp hp
    exact List.mem_singleton_self t
  | scan => exact ⟨[], scan_draws hnext⟩
  | close set members =>
    cases members with
    | nil =>
      obtain rfl : q' = Layer.resume w set := hnext
      exact ⟨[], draws_nothing rfl rfl⟩
    | cons t members =>
      obtain rfl : q' = ⟨.close set members, w⟩ := hnext
      exact ⟨[], draws_nothing rfl rfl⟩
  | answer set => exact absurd hnext not_false

/-! ## 3. Whole pasts -/

/-- No pair is drawn twice or still to be drawn when it was drawn before, and all pairs are pairs of
types that were entered. -/
structure Query.Drawn (past : List Query) (q : Query) : Prop where
  nodup : (drawings past ++ q.walk.undrawn).Nodup
  entered : ∀ p ∈ drawings past ++ q.walk.undrawn, p.1 ∈ entries past

/-- **Every step keeps apart what is drawn and what is not.** -/
theorem Query.Drawn.next (h : q.Drawn past) (hrecorded : q.Recorded layer past)
    (hnext : (layer.step q).Leads q') : q'.Drawn (past ++ [q]) := by
  obtain ⟨brought, hdraws⟩ := step_draws hnext
  have hsplit : drawings (past ++ [q]) ++ q'.walk.undrawn =
      drawings past ++ (brought ++ q.walk.undrawn) := by
    rw [drawings_append, List.append_assoc, hdraws.undrawn]
  have hperm : (brought ++ (drawings past ++ q.walk.undrawn)).Perm
      (drawings (past ++ [q]) ++ q'.walk.undrawn) := by
    rw [hsplit, ← List.append_assoc, ← List.append_assoc]
    exact List.perm_append_comm.append_right _
  refine ⟨hperm.nodup_iff.mp ?_, fun p hp => ?_⟩
  · rw [List.nodup_append]
    refine ⟨hdraws.nodup, h.nodup, ?_⟩
    -- The pairs that are brought up are those of a type that was not entered before.
    rintro p hp _ hp' rfl
    have hnodup := (hrecorded.next hnext).nodup
    rw [entries_append, List.nodup_append] at hnodup
    exact hnodup.2.2 p.1 (h.entered p hp') p.1 (hdraws.coming p hp) rfl
  · rw [entries_append, List.mem_append]
    rcases List.mem_append.mp (hperm.mem_iff.mpr hp) with hp | hp
    · exact .inr (hdraws.coming p hp)
    · exact .inl (h.entered p hp)

/-- **However a query goes on**, it draws no pair twice. -/
theorem Layer.Runs.drawn (h : layer.Runs q past q') (hq : q.Recorded layer [])
    (hundrawn : q.walk.undrawn = []) : q'.Drawn past := by
  induction h with
  | refl => exact ⟨by simp [drawings, hundrawn], by simp [drawings, hundrawn]⟩
  | tail hruns hnext ih => exact ih.next (hruns.recorded hq) hnext

end Ancestry.Closure
