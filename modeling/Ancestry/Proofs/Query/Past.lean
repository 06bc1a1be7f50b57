import Ancestry.Proofs.Query.Books
import Ancestry.Proofs.Walk.Bookkeeping

/-!
# The past of a query

A query goes on from step to step, told this or that by the core registry and by a memo to which
others may write (`Step.Leads`).  Its past is the list of the queries that it was before, and from
there can be read which types its walk entered, which components it closed and what it stored.

Whatever it was told, its walk is in order at every point (`Phase.Fits`), and its past agrees with
what the walk has in mind (`Query.Recorded`): the types entered are those that have a number, each
of them is on the stack or in one of the components, and what was stored are the types of the
components.  When there is an answer, the component that was closed last is the one of the type at
which the walk began.
-/

namespace Ancestry.Closure

open Stretch

/-! ## 1. Pasts -/

/-- The query may come next after the step, which depends on what is said to the step. -/
def Step.Leads : Step → Query → Prop
  | .silent next, q => q = next
  | .core _ next, q => ∃ set, q = (next set).1
  | .lookup _ hit miss, q => q = miss ∨ ∃ set, q = hit set
  | .store _ _ next, q => q = next
  | .answer _, _ => False

/-- The component that a walk closes with its next step, if it closes one, and its set. -/
def Layer.closing (layer : Layer) (q : Query) : List (List TypeName × TypeSet) :=
  match q.phase, layer.step q with
  | .scan, .silent ⟨.close set members, _⟩ => [(members, set)]
  | _, _ => []

/-- What a query stores with its next step, if it stores anything. -/
def Query.storing (q : Query) : List (TypeName × TypeSet) :=
  match q.phase with
  | .close set (t :: _) => [(t, set)]
  | _ => []

/-- The query `q` has become `q'`, and `past` are the queries that it was before, `q` in front. -/
inductive Layer.Runs (layer : Layer) (q : Query) : List Query → Query → Prop
  | refl : Runs layer q [] q
  | tail {past : List Query} {q' q'' : Query} (hruns : Runs layer q past q')
    (hnext : (layer.step q').Leads q'') : Runs layer q (past ++ [q']) q''

/-- The types that a query entered, the first one in front. -/
def entries (past : List Query) : List TypeName := past.flatMap Query.coming

/-- The components that a query closed and their sets, the first one in front. -/
def Layer.closings (layer : Layer) (past : List Query) : List (List TypeName × TypeSet) :=
  past.flatMap layer.closing

/-- What a query stored, the first one in front. -/
def storings (past : List Query) : List (TypeName × TypeSet) := past.flatMap Query.storing

/-- The types of components, those of the first one in front. -/
def closed (closings : List (List TypeName × TypeSet)) : List TypeName := closings.flatMap (·.1)

/-- The component that was closed last has the set `set`, and its root is `root`. -/
def Layer.ClosedLast (layer : Layer) (past : List Query) (root : TypeName) (set : TypeSet) : Prop :=
  ∃ earlier members, layer.closings past = earlier ++ [(members, set)] ∧
    members.getLast? = some root

/-- What holds of the walk of a query in a phase, whatever the query was told. -/
def Phase.Fits (layer : Layer) (past : List Query) (w : Walk) : Phase → Prop
  | .ask _ | .consult _ | .direct _ => entries past = [] ∧ w = .empty
  | .enter t => ∃ start parts, (entries past ++ [t]).head? = some start ∧ w.Fits start parts ∧
      t ∉ w.order ∧ (parts = [] → w = .empty ∧ t = start)
  | .scan => ∃ start p below, (entries past).head? = some start ∧ w.Fits start (p :: below)
  | .close set _ => ∃ start parts, (entries past).head? = some start ∧ w.Fits start parts ∧
      (parts = [] → layer.ClosedLast past start set)
  | .answer set => (∃ start, w.Fits start []) ∧
      ∀ start, (entries past).head? = some start → layer.ClosedLast past start set

/-- The query `q` goes on as `q'`, which fits its past, and nothing changes but for what is entered,
closed and stored. -/
structure Query.Turns (layer : Layer) (past : List Query) (q q' : Query) : Prop where
  fits : q'.phase.Fits layer (past ++ [q]) q'.walk
  order : ∀ t, t ∈ q'.walk.order ↔ t ∈ q.coming ∨ t ∈ q.walk.order
  fresh : ∀ t ∈ q.coming, t ∉ q.walk.order
  stack : closed (layer.closing q) ++ q'.walk.stack = q.coming ++ q.walk.stack
  finished : ∀ t, t ∈ q'.walk.finished ↔ t ∈ closed (layer.closing q) ∨ t ∈ q.walk.finished
  owed : q.storing.map (·.1) ++ q'.owed = q.owed ++ closed (layer.closing q)
  nonempty : ∀ c ∈ layer.closing q, c.1 ≠ []

variable {layer : Layer} {past : List Query} {q q' : Query} {w w' : Walk} {start t root : TypeName}
  {set : TypeSet} {p : Stretch} {parts below : List Stretch}

@[simp] theorem entries_append (q : Query) : entries (past ++ [q]) = entries past ++ q.coming := by
  simp [entries]

@[simp] theorem closings_append (q : Query) :
    layer.closings (past ++ [q]) = layer.closings past ++ layer.closing q := by
  simp [Layer.closings]

@[simp] theorem storings_append (q : Query) :
    storings (past ++ [q]) = storings past ++ q.storing := by
  simp [storings]

@[simp] theorem closed_append (c c' : List (List TypeName × TypeSet)) :
    closed (c ++ c') = closed c ++ closed c' := by
  simp [closed]

theorem flatten_closings (closings : List (List TypeName × TypeSet)) :
    (closings.map (·.1)).flatten = closed closings :=
  (List.flatMap_def ..).symm

/-- Only a walk that scans closes a component. -/
theorem closing_eq_nil (hscan : q.phase ≠ .scan) : layer.closing q = [] := by
  unfold Layer.closing
  split
  · next hphase _ => exact absurd hphase hscan
  · rfl

/-- No step closes two components. -/
theorem closing_eq (layer : Layer) (q : Query) :
    layer.closing q = [] ∨ ∃ c, layer.closing q = [c] := by
  unfold Layer.closing
  split
  · exact .inr ⟨_, rfl⟩
  · exact .inl rfl

/-- A walk closes the component of the type of its innermost frame. -/
theorem mem_closing {c : List TypeName × TypeSet} {f : Frame} {rest : List Frame}
    (hframes : w.frames = f :: rest) (hc : c ∈ layer.closing ⟨.scan, w⟩) :
    c.1 = w.component f.type := by
  unfold Layer.closing at hc
  split at hc
  · next set members w' _ hstep =>
    rw [List.mem_singleton.mp hc]
    simp only [Layer.step, hframes] at hstep
    split at hstep
    · have hleave : Layer.leave w f = ⟨.close set members, w'⟩ := Step.silent.inj hstep
      unfold Layer.leave at hleave
      dsimp only at hleave
      split at hleave
      · unfold Layer.resume at hleave
        split at hleave <;> cases hleave
      · cases hleave
        rfl
    · split at hstep
      · cases hstep
      · split at hstep <;> cases hstep
  · exact absurd hc List.not_mem_nil

/-- No step enters two types. -/
theorem coming_eq (q : Query) : q.coming = [] ∨ ∃ t, q.coming = [t] := by
  unfold Query.coming
  split
  · exact .inr ⟨_, rfl⟩
  · exact .inl rfl

/-- In every phase that a past fits, the walk is orderly. -/
theorem Phase.Fits.orderly : ∀ {phase : Phase}, phase.Fits layer past w → w.Orderly
  | .ask _, ⟨_, hw⟩ | .consult _, ⟨_, hw⟩ | .direct _, ⟨_, hw⟩ =>
    hw ▸ (Walk.fits_empty "").orderly
  | .enter _, ⟨_, _, _, hw, _⟩ => hw.orderly
  | .scan, ⟨_, _, _, _, hw⟩ => hw.orderly
  | .close _ _, ⟨_, _, _, hw, _⟩ => hw.orderly
  | .answer _, ⟨⟨_, hw⟩, _⟩ => hw.orderly

theorem Layer.ClosedLast.append (h : layer.ClosedLast past root set)
    (hq : layer.closing q = []) : layer.ClosedLast (past ++ [q]) root set := by
  obtain ⟨earlier, members, hclosings, hroot⟩ := h
  exact ⟨earlier, members, by rw [closings_append, hq, List.append_nil, hclosings], hroot⟩

/-! ## 2. Queries that do not walk -/

/-- Nothing is entered, closed or stored. -/
theorem turns_still (hfits : q'.phase.Fits layer (past ++ [q]) q'.walk) (hcoming : q.coming = [])
    (hclosing : layer.closing q = []) (hstoring : q.storing = [])
    (horder : q'.walk.order = q.walk.order) (hstack : q'.walk.stack = q.walk.stack)
    (hfinished : q'.walk.finished = q.walk.finished) (howed : q'.owed = q.owed) :
    q.Turns layer past q' := by
  refine ⟨hfits, ?_, ?_, ?_, ?_, ?_, ?_⟩
  · simp [horder, hcoming]
  · simp [hcoming]
  · simp [hclosing, hcoming, hstack, closed]
  · simp [hclosing, hfinished, closed]
  · simp [hclosing, hstoring, howed, closed]
  · simp [hclosing]

/-- A walk may begin at any type. -/
theorem fits_begin (hpast : entries past = []) (t : TypeName) :
    (Phase.enter t).Fits layer past .empty := by
  refine ⟨t, [], ?_, Walk.fits_empty t, by simp [Walk.empty], fun _ => ⟨rfl, rfl⟩⟩
  rw [hpast]
  rfl

/-- A query that has not walked may be answered with any set. -/
theorem fits_unwalked (hpast : entries past = []) (set : TypeSet) :
    (Phase.answer set).Fits layer past .empty := by
  refine ⟨⟨"", Walk.fits_empty ""⟩, fun start hstart => ?_⟩
  rw [hpast] at hstart
  cases hstart

theorem fetch_leads {next : TypeSet → Query} (h : (layer.fetch t next).Leads q') :
    ∃ set, q' = next set := by
  unfold Layer.fetch at h
  split at h
  · exact ⟨_, h⟩
  · split at h
    · exact h
    · exact ⟨_, h⟩

/-- Before a walk begins, and where none does, no type has been entered.  So the past has nothing to
say of the turn. -/
theorem ask_turns (hpast : entries past = [])
    (hnext : (layer.step ⟨.ask t, .empty⟩).Leads q') :
    Query.Turns layer past ⟨.ask t, .empty⟩ q' := by
  have hentries : entries (past ++ [⟨.ask t, .empty⟩]) = [] := by
    rw [entries_append, hpast]
    rfl
  have hconsult : Query.Turns layer past ⟨.ask t, .empty⟩ ⟨.consult t, .empty⟩ :=
    turns_still ⟨hentries, rfl⟩ rfl (closing_eq_nil (by simp)) rfl rfl rfl rfl rfl
  simp only [Layer.step] at hnext
  split at hnext
  · obtain ⟨set, rfl⟩ := hnext
    dsimp only
    split
    · exact hconsult
    · exact turns_still (fits_unwalked hentries set) rfl (closing_eq_nil (by simp)) rfl rfl rfl rfl
        rfl
  · obtain rfl : q' = _ := hnext
    exact hconsult

theorem consult_turns (hpast : entries past = [])
    (hnext : (layer.step ⟨.consult t, .empty⟩).Leads q') :
    Query.Turns layer past ⟨.consult t, .empty⟩ q' := by
  have hentries : entries (past ++ [⟨.consult t, .empty⟩]) = [] := by
    rw [entries_append, hpast]
    rfl
  rcases hnext with rfl | ⟨set, rfl⟩
  · exact turns_still (fits_begin hentries t) rfl (closing_eq_nil (by simp)) rfl rfl rfl rfl rfl
  · exact turns_still (fits_unwalked hentries set) rfl (closing_eq_nil (by simp)) rfl rfl rfl rfl
      rfl

theorem direct_turns (hpast : entries past = [])
    (hnext : (layer.step ⟨.direct t, .empty⟩).Leads q') :
    Query.Turns layer past ⟨.direct t, .empty⟩ q' := by
  have hentries : entries (past ++ [⟨.direct t, .empty⟩]) = [] := by
    rw [entries_append, hpast]
    rfl
  obtain ⟨set, rfl⟩ := fetch_leads hnext
  exact turns_still (fits_unwalked hentries set) rfl (closing_eq_nil (by simp)) rfl rfl rfl rfl rfl

/-! ## 3. The steps of a walk -/

/-- Entering a type puts it on the stack. -/
theorem enter_turns (h : (Phase.enter t).Fits layer past w)
    (hnext : (layer.step ⟨.enter t, w⟩).Leads q') : Query.Turns layer past ⟨.enter t, w⟩ q' := by
  obtain ⟨start, parts, hhead, hw, hfresh, hstart⟩ := h
  obtain ⟨set, rfl⟩ := fetch_leads hnext
  have hclosing : layer.closing ⟨.enter t, w⟩ = [] := closing_eq_nil (by simp)
  refine ⟨⟨start, _, parts, ?_, hw.enter hfresh hstart⟩, ?_, ?_, ?_, ?_, ?_, ?_⟩
  · rw [entries_append]
    exact hhead
  · intro u
    simpa [Query.coming] using Walk.mem_order_enter
  · intro u hu
    rw [List.mem_singleton.mp hu]
    exact hfresh
  · rw [hclosing]
    rfl
  · rw [hclosing]
    simp [closed, Walk.enter]
  · rw [hclosing]
    rfl
  · simp [hclosing]

/-- Leaving a frame closes its component or puts something aside.  The last frame is that of the
type at which the walk began, and with it a component is closed. -/
theorem leave_turns (hhead : (entries past).head? = some start) (hw : w.Fits start (p :: below))
    (hstep : layer.step ⟨.scan, w⟩ = .silent (Layer.leave w p.frame)) :
    Query.Turns layer past ⟨.scan, w⟩ (Layer.leave w p.frame) := by
  have hentries : (entries (past ++ [⟨.scan, w⟩])).head? = some start := by
    rw [entries_append]
    simpa [Query.coming] using hhead
  by_cases hlow : w.lowOf p.root = w.orderOf p.root
  · have hleave := leave_close hlow hw.component_eq
    generalize hset : w.componentSet p.root p.frame.collected = set at hleave
    have hclosing : layer.closing ⟨.scan, w⟩ = [(p.members, set)] := by
      simp only [Layer.closing, hstep, hleave]
    have hclosed : closed (layer.closing ⟨.scan, w⟩) = p.members := by
      rw [hclosing]
      exact List.append_nil _
    obtain ⟨parts, hparts, hnil⟩ := (hw.closeComponent set).yield set (w.lowOf p.root)
    rw [hleave]
    refine ⟨⟨start, parts, hentries, hparts, fun he => ?_⟩, ?_, ?_, ?_, ?_, ?_, ?_⟩
    · obtain rfl := hnil he
      refine ⟨layer.closings past, p.members, ?_, ?_⟩
      · rw [closings_append, hclosing]
      · simp [members, hw.alone.1]
    · intro u
      rw [Walk.order_yield]
      simp [Query.coming, Walk.closeComponent]
    · simp [Query.coming]
    · rw [hclosed, Walk.stack_yield]
      exact (congrArg (p.members ++ ·) (hw.stack_closeComponent set)).trans hw.stack_eq.symm
    · intro u
      rw [hclosed, Walk.finished_yield, Walk.mem_finished_closeComponent]
      exact or_congr_left (by rw [← hw.component_eq]; rfl)
    · rw [hclosed]
      rfl
    · rw [hclosing]
      intro c hc
      rw [List.mem_singleton.mp hc]
      exact List.append_ne_nil_of_right_ne_nil _ (List.cons_ne_nil _ _)
  · cases below with
    | nil => exact absurd hw.alone.2 hlow
    | cons r rest =>
      have hleave := leave_aside hlow
      obtain ⟨parts, hparts, hnil⟩ := (hw.setAside p.frame.collected).yield p.frame.collected
        (w.lowOf p.root)
      obtain ⟨r', rest', rfl⟩ := List.exists_cons_of_ne_nil fun he =>
        absurd (hnil he) (List.cons_ne_nil _ _)
      rw [resume_eq_scan hparts.frames_eq] at hleave
      rw [hleave]
      refine turns_still ⟨start, r', rest', hentries, hparts⟩ rfl ?_ rfl ?_ ?_ ?_ rfl
      · simp only [Layer.closing, hstep, hleave]
      · exact Walk.order_yield
      · exact Walk.stack_yield
      · exact Walk.finished_yield

/-- Scanning takes a supertype or leaves the frame. -/
theorem scan_turns (h : Phase.scan.Fits layer past w)
    (hnext : (layer.step ⟨.scan, w⟩).Leads q') : Query.Turns layer past ⟨.scan, w⟩ q' := by
  obtain ⟨start, p, below, hhead, hw⟩ := h
  have hentries : (entries (past ++ [⟨.scan, w⟩])).head? = some start := by
    rw [entries_append]
    simpa [Query.coming] using hhead
  have hframes : w.frames = p.frame :: below.map (·.frame) := hw.frames_eq
  cases hpending : p.frame.pending with
  | nil =>
    have hstep : layer.step ⟨.scan, w⟩ = .silent (Layer.leave w p.frame) := by
      simp only [Layer.step, hframes, hpending]
    rw [hstep] at hnext
    obtain rfl : q' = _ := hnext
    exact leave_turns hhead hw hstep
  | cons s pending =>
    have hdrop := hw.drop
    have halike : ∀ {p' : Stretch} {w' : Walk}, layer.closing ⟨.scan, w⟩ = [] →
        w'.Fits start (p' :: below) → w'.order = w.order → w'.stack = w.stack →
        w'.finished = w.finished → Query.Turns layer past ⟨.scan, w⟩ ⟨.scan, w'⟩ :=
      fun hclosing hw' horder hstack hfinished =>
        turns_still ⟨start, _, below, hentries, hw'⟩ rfl hclosing rfl horder hstack hfinished rfl
    have hscan : ∀ w' : Walk, layer.step ⟨.scan, w⟩ = .silent ⟨.scan, w'⟩ →
        layer.closing ⟨.scan, w⟩ = [] := fun w' hstep => by simp only [Layer.closing, hstep]
    by_cases hon : s ∈ w.drop.onStack
    · have hstep : layer.step ⟨.scan, w⟩ =
          .silent ⟨.scan, w.drop.lower p.root (w.drop.orderOf s)⟩ := by
        simp only [Layer.step, hframes, hpending, if_pos hon]
        rfl
      rw [hstep] at hnext
      obtain rfl : q' = _ := hnext
      exact halike (hscan _ hstep) (hdrop.lower _) Walk.order_drop Walk.stack_drop
        Walk.finished_drop
    · cases hfinished : w.drop.finished[s]? with
      | some set =>
        have hstep : layer.step ⟨.scan, w⟩ = .silent ⟨.scan, w.drop.collect set⟩ := by
          simp only [Layer.step, hframes, hpending, if_neg hon, hfinished]
        rw [hstep] at hnext
        obtain rfl : q' = _ := hnext
        exact halike (hscan _ hstep) (hdrop.collect set) (by simp) (by simp) (by simp)
      | none =>
        have hstep : layer.step ⟨.scan, w⟩ =
            .lookup s (fun set => ⟨.scan, w.drop.collect set⟩) ⟨.enter s, w.drop⟩ := by
          simp only [Layer.step, hframes, hpending, if_neg hon, hfinished]
        have hclosing : layer.closing ⟨.scan, w⟩ = [] := by simp only [Layer.closing, hstep]
        rw [hstep] at hnext
        rcases hnext with rfl | ⟨set, rfl⟩
        · -- What is neither on the stack nor finished has not been entered.
          have hfresh : s ∉ w.drop.order := by
            rw [hdrop.order_iff, ← hdrop.mem_onStack, not_or]
            refine ⟨hon, fun hmem => ?_⟩
            rw [Std.ExtTreeMap.mem_iff_isSome_getElem?, hfinished] at hmem
            exact Bool.false_ne_true hmem
          refine turns_still ⟨start, _, ?_, hdrop, hfresh, fun he => ?_⟩ rfl hclosing rfl
            Walk.order_drop Walk.stack_drop Walk.finished_drop rfl
          · rw [List.head?_append, hentries]
            rfl
          · exact absurd he (List.cons_ne_nil _ _)
        · exact halike hclosing (hdrop.collect set) (by simp) (by simp) (by simp)

/-- What is owed is stored from the first type to the last, and then the walk goes on. -/
theorem close_turns {members : List TypeName} (h : (Phase.close set members).Fits layer past w)
    (hnext : (layer.step ⟨.close set members, w⟩).Leads q') :
    Query.Turns layer past ⟨.close set members, w⟩ q' := by
  obtain ⟨start, parts, hhead, hw, hlast⟩ := h
  have hclosing : layer.closing ⟨.close set members, w⟩ = [] := closing_eq_nil (by simp)
  have hentries : (entries (past ++ [⟨.close set members, w⟩])).head? = some start := by
    rw [entries_append]
    simpa [Query.coming] using hhead
  cases members with
  | nil =>
    obtain rfl : q' = Layer.resume w set := hnext
    cases parts with
    | nil =>
      rw [resume_eq_answer hw.frames_eq]
      refine turns_still ⟨⟨start, hw⟩, fun start' hstart' => ?_⟩ rfl hclosing rfl rfl rfl rfl rfl
      cases hentries.symm.trans hstart'
      exact (hlast rfl).append hclosing
    | cons p below =>
      rw [resume_eq_scan hw.frames_eq]
      exact turns_still ⟨start, p, below, hentries, hw⟩ rfl hclosing rfl rfl rfl rfl rfl
  | cons t members =>
    obtain rfl : q' = ⟨.close set members, w⟩ := hnext
    refine ⟨⟨start, parts, hentries, hw, fun he => (hlast he).append hclosing⟩, ?_, ?_, ?_, ?_, ?_,
      ?_⟩
    all_goals simp [hclosing, Query.coming, closed, Query.storing, Query.owed]

/-- **What a step can do to the books**: whatever the query is told, its walk stays in order, and
nothing changes but for what is entered, closed and stored. -/
theorem step_turns (h : q.phase.Fits layer past q.walk) (hnext : (layer.step q).Leads q') :
    q.Turns layer past q' := by
  obtain ⟨phase, w⟩ := q
  cases phase with
  | ask t =>
    obtain ⟨hpast, rfl⟩ := h
    exact ask_turns hpast hnext
  | consult t =>
    obtain ⟨hpast, rfl⟩ := h
    exact consult_turns hpast hnext
  | direct t =>
    obtain ⟨hpast, rfl⟩ := h
    exact direct_turns hpast hnext
  | enter t => exact enter_turns h hnext
  | scan => exact scan_turns h hnext
  | close set members => exact close_turns h hnext
  | answer set => exact absurd hnext not_false

/-! ## 4. Whole pasts -/

/-- What the past of a query says of the query. -/
structure Query.Recorded (layer : Layer) (past : List Query) (q : Query) : Prop where
  fits : q.phase.Fits layer past q.walk
  order : ∀ t, t ∈ q.walk.order ↔ t ∈ entries past
  nodup : (entries past).Nodup
  perm : (closed (layer.closings past) ++ q.walk.stack).Perm (entries past)
  stack : q.walk.stack.reverse.Sublist (entries past)
  components : ∀ c ∈ layer.closings past, c.1 ≠ [] ∧ c.1.reverse.Sublist (entries past)
  finished : ∀ t, t ∈ q.walk.finished ↔ t ∈ closed (layer.closings past)
  owed : (storings past).map (·.1) ++ q.owed = closed (layer.closings past)

/-- **With every step the past goes on to agree with the query**, whatever it is told. -/
theorem Query.Recorded.next (h : q.Recorded layer past) (hnext : (layer.step q).Leads q') :
    q'.Recorded layer (past ++ [q]) := by
  have hturns := step_turns h.fits hnext
  have hcoming : q.coming.Nodup ∧ q.coming.reverse = q.coming := by
    rcases coming_eq q with hq | ⟨t, hq⟩ <;> simp [hq]
  -- What was on the stack before, with what is entered, in the order of entry.
  have hentered : (q.walk.stack.reverse ++ q.coming).Sublist (entries past ++ q.coming) :=
    h.stack.append_right _
  have hsplit : q'.walk.stack.reverse ++ (closed (layer.closing q)).reverse =
      q.walk.stack.reverse ++ q.coming := by
    rw [← List.reverse_append, hturns.stack, List.reverse_append, hcoming.2]
  refine ⟨hturns.fits, fun t => ?_, ?_, ?_, ?_, fun c hc => ?_, fun t => ?_, ?_⟩
  · rw [hturns.order, h.order, entries_append, List.mem_append, or_comm]
  · rw [entries_append, List.nodup_append]
    refine ⟨h.nodup, hcoming.1, ?_⟩
    rintro t ht u hu rfl
    exact hturns.fresh t hu ((h.order t).mpr ht)
  · rw [closings_append, closed_append, entries_append, List.append_assoc, hturns.stack]
    have hswap : (q.coming ++ q.walk.stack).Perm (q.walk.stack ++ q.coming) :=
      List.perm_append_comm
    have hmoved := hswap.append_left (closed (layer.closings past))
    rw [← List.append_assoc _ q.walk.stack] at hmoved
    exact hmoved.trans (h.perm.append_right _)
  · rw [entries_append]
    exact (hsplit ▸ List.sublist_append_left ..).trans hentered
  · rw [closings_append] at hc
    rw [entries_append]
    rcases List.mem_append.mp hc with hc | hc
    · exact ⟨(h.components c hc).1,
        (h.components c hc).2.trans (List.sublist_append_left ..)⟩
    · refine ⟨hturns.nonempty c hc, ?_⟩
      have hclosed : closed (layer.closing q) = c.1 := by
        rcases closing_eq layer q with hq | ⟨c', hq⟩
        · rw [hq] at hc
          exact absurd hc List.not_mem_nil
        · rw [hq] at hc ⊢
          rw [List.mem_singleton.mp hc]
          exact List.append_nil _
      rw [← hclosed]
      exact (hsplit ▸ List.sublist_append_right ..).trans hentered
  · rw [hturns.finished, h.finished, closings_append, closed_append, List.mem_append, or_comm]
  · rw [storings_append, List.map_append, List.append_assoc, hturns.owed, closings_append,
      closed_append, ← List.append_assoc, h.owed]

/-- What a step says about the phase that it is taken in. -/
def Step.Tells (q : Query) : Step → Prop
  | .store t set _ => q.storing = [(t, set)]
  | .answer set => q.storing = [] ∧ (q.phase = .scan ∧ q.walk.frames = [] ∨ q.phase = .answer set)
  | _ => q.storing = []

theorem fetch_tells {next : TypeSet → Query} (hq : q.storing = []) :
    (layer.fetch t next).Tells q := by
  unfold Layer.fetch
  split
  · exact hq
  · split <;> exact hq

/-- Only a query that closes a component stores anything, and what answers is answered. -/
theorem step_tells (layer : Layer) (q : Query) : (layer.step q).Tells q := by
  obtain ⟨phase, w⟩ := q
  cases phase with
  | ask t =>
    simp only [Layer.step]
    split <;> rfl
  | consult t => rfl
  | direct t => exact fetch_tells rfl
  | enter t => exact fetch_tells rfl
  | scan =>
    simp only [Layer.step]
    split
    · next hframes => exact ⟨rfl, .inl ⟨rfl, hframes⟩⟩
    · split
      · rfl
      · split
        · rfl
        · split <;> rfl
  | close set members => cases members <;> rfl
  | answer set => exact ⟨rfl, .inr rfl⟩

/-- A query that gives an answer has walked to the end, if it has walked. -/
theorem Query.Recorded.answered (h : q.Recorded layer past)
    (hstep : layer.step q = .answer set) : q.phase = .answer set := by
  have htells := step_tells layer q
  rw [hstep] at htells
  obtain ⟨_, ⟨hscan, hframes⟩ | hanswer⟩ := htells
  · obtain ⟨phase, w⟩ := q
    obtain rfl : phase = .scan := hscan
    obtain ⟨_, p, below, _, hw⟩ := h.fits
    exact absurd (hw.frames_eq.symm.trans hframes) (by simp)
  · exact hanswer

/-- **However a query goes on**, its past agrees with it. -/
theorem Layer.Runs.recorded (h : layer.Runs q past q') (hq : q.Recorded layer []) :
    q'.Recorded layer past := by
  induction h with
  | refl => exact hq
  | tail _ hnext ih => exact ih.next hnext

/-- A query that has not entered anything agrees with its past, which is empty. -/
theorem recorded_begin {phase : Phase} (hfits : phase.Fits layer [] .empty)
    (howed : Query.owed ⟨phase, .empty⟩ = []) : Query.Recorded layer [] ⟨phase, .empty⟩ := by
  refine ⟨hfits, ?_, .nil, .refl _, .refl _, ?_, ?_, howed⟩
  · simp [Walk.empty, entries]
  · simp [Layer.closings]
  · simp [Walk.empty, Layer.closings, closed]

end Ancestry.Closure
