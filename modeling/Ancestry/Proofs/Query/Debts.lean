import Ancestry.Proofs.Query.Past

/-!
# What a query owes to the memo

A type that a lookup has missed is owed to the memo until it is stored (`Query.outstanding`): it is
about to be entered, or on the stack, or its component is closed and it has not had its turn yet.
Nothing gets lost on the way.  A miss adds the type that was missed, a write takes off the type that
was stored, and every other step leaves what is outstanding as it is (`step_debits`); a query that
gives its answer owes nothing.
-/

namespace Ancestry.Closure

/-- The types that were missed and are not stored yet. -/
def Query.outstanding (q : Query) : List TypeName := q.coming ++ (q.owed ++ q.walk.stack)

variable {layer : Layer} {past : List Query} {q q' : Query} {t : TypeName} {set : TypeSet}

/-! ## 1. What is coming -/

/-- A step after which a type is about to be entered only if a lookup has just missed it. -/
def Step.Calls : Step → Prop
  | .silent next => next.coming = []
  | .core _ next => ∀ set, (next set).1.coming = []
  | .lookup t hit miss => (∀ set, (hit set).coming = []) ∧ miss.coming = [t]
  | .store _ _ next => next.coming = []
  | .answer _ => True

theorem fetch_calls {next : TypeSet → Query} (h : ∀ set, (next set).coming = []) :
    (layer.fetch t next).Calls := by
  unfold Layer.fetch
  split
  · exact h _
  · split
    · exact h
    · exact h ∅

theorem resume_coming (w : Walk) (set : TypeSet) : (Layer.resume w set).coming = [] := by
  unfold Layer.resume Query.coming
  cases w.frames.isEmpty <;> rfl

theorem leave_coming (w : Walk) (f : Frame) : (Layer.leave w f).coming = [] := by
  unfold Layer.leave
  dsimp only
  split
  · exact resume_coming _ _
  · rfl

/-- Nothing is about to be entered that a lookup has not missed. -/
theorem step_calls (layer : Layer) (q : Query) : (layer.step q).Calls := by
  obtain ⟨phase, w⟩ := q
  cases phase with
  | ask t =>
    simp only [Layer.step]
    split
    · intro set
      dsimp only
      split <;> rfl
    · rfl
  | consult t => exact ⟨fun _ => rfl, rfl⟩
  | direct t => exact fetch_calls fun _ => rfl
  | enter t => exact fetch_calls fun _ => rfl
  | scan =>
    simp only [Layer.step]
    split
    · trivial
    · split
      · exact leave_coming _ _
      · split
        · rfl
        · split
          · rfl
          · exact ⟨fun _ => rfl, rfl⟩
  | close set members =>
    cases members with
    | nil => exact resume_coming _ _
    | cons t members => rfl
  | answer set => trivial

/-! ## 2. What is outstanding -/

/-- What is stored and what is outstanding afterwards is what was outstanding before and what is
missed. -/
theorem Query.Turns.outstanding (h : q.Turns layer past q') :
    (q.storing.map (·.1) ++ q'.outstanding).Perm (q'.coming ++ q.outstanding) := by
  have hsettled : q.storing.map (·.1) ++ (q'.owed ++ q'.walk.stack) =
      q.owed ++ (q.coming ++ q.walk.stack) := by
    rw [← List.append_assoc, h.owed, List.append_assoc, h.stack]
  have hfront : (q.storing.map (·.1) ++ q'.outstanding).Perm
      (q'.coming ++ (q.storing.map (·.1) ++ (q'.owed ++ q'.walk.stack))) :=
    List.perm_append_comm_assoc _ _ _
  rw [hsettled] at hfront
  exact hfront.trans ((List.perm_append_comm_assoc _ _ _).append_left _)

/-- A step by which a miss adds the type that was missed to what is outstanding, a write takes off
the type that is stored, and nothing else changes. -/
def Step.Debits (q : Query) : Step → Prop
  | .silent next => next.outstanding.Perm q.outstanding
  | .core _ next => ∀ set, (next set).1.outstanding.Perm q.outstanding
  | .lookup t hit miss => (∀ set, (hit set).outstanding.Perm q.outstanding) ∧
      miss.outstanding.Perm (t :: q.outstanding)
  | .store t _ next => (t :: next.outstanding).Perm q.outstanding
  | .answer _ => q.outstanding = []

/-- **Nothing gets lost between a miss and the write that follows it**, whatever the query is
told. -/
theorem step_debits (h : q.Recorded layer past) : (layer.step q).Debits q := by
  have hturns : ∀ q', (layer.step q).Leads q' → _ := fun q' hnext =>
    (step_turns h.fits hnext : q.Turns layer past q').outstanding
  have hcalls := step_calls layer q
  have htells := step_tells layer q
  cases hstep : layer.step q with
  | silent next =>
    rw [hstep] at hturns hcalls htells
    have hperm := hturns next rfl
    rwa [show q.storing = [] from htells, show next.coming = [] from hcalls] at hperm
  | core t next =>
    rw [hstep] at hturns hcalls htells
    intro set
    have hperm := hturns _ ⟨set, rfl⟩
    rwa [show q.storing = [] from htells, hcalls set] at hperm
  | lookup t hit miss =>
    rw [hstep] at hturns hcalls htells
    refine ⟨fun set => ?_, ?_⟩
    · have hperm := hturns _ (.inr ⟨set, rfl⟩)
      rwa [show q.storing = [] from htells, hcalls.1 set] at hperm
    · have hperm := hturns _ (.inl rfl)
      rwa [show q.storing = [] from htells, hcalls.2] at hperm
  | store t set next =>
    rw [hstep] at hturns hcalls htells
    have hperm := hturns next rfl
    rwa [show q.storing = [(t, set)] from htells, show next.coming = [] from hcalls] at hperm
  | answer set =>
    have hphase := h.answered hstep
    have hfits := h.fits
    rw [hphase] at hfits
    have hstack : q.walk.stack = [] := hfits.1.choose_spec.stack_eq
    simp [Step.Debits, Query.outstanding, Query.coming, Query.owed, hphase, hstack]

/-- No type is outstanding twice. -/
theorem Query.Recorded.nodup_outstanding (h : q.Recorded layer past) : q.outstanding.Nodup := by
  -- What was entered is stored, owed or on the stack, each type once.
  have hentered : (storings past).map (·.1) ++ (q.owed ++ q.walk.stack) =
      closed (layer.closings past) ++ q.walk.stack := by
    rw [← List.append_assoc, h.owed]
  have hperm := h.perm
  rw [← hentered] at hperm
  have hopen := (List.nodup_append.mp (hperm.nodup_iff.mpr h.nodup)).2.1
  obtain ⟨phase, w⟩ := q
  cases phase with
  | enter t =>
    obtain ⟨_, _, _, _, hfresh, _⟩ := h.fits
    refine List.nodup_cons.mpr ⟨fun ht => hfresh ?_, hopen⟩
    exact (h.order t).mpr (hperm.mem_iff.mp (List.mem_append_right _ ht))
  | _ => exact hopen

/-- A question that has just been put owes nothing. -/
theorem outstanding_activation (question : Question) :
    question.activation.query.outstanding = [] := by
  cases question <;> rfl

end Ancestry.Closure
