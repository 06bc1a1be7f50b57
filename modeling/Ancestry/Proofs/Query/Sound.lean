import Ancestry.Proofs.Walk.Steps

/-!
# Every step of a query is right

`Query.Good` says of a query that it is on the way to the answer of its question, and
`Step.Good` says the same of what it does next: every set that it stores is the set of the type
under which it is stored, an answer answers the question, and whatever it is told, by the core
registry or by the memo, it stays on the way.  The one thing demanded of the memo is that a set
found in it is the right one; a lookup that finds nothing may come out either way, so other queries
may write to the memo between any two steps.

Besides this, a query keeps account of what the memo has to know in the end: the types whose
component is closed are in the memo, or still owed to it (`Query.Good.owed`).
-/

namespace Ancestry.Closure

open Stretch

variable {layer : Layer} {known : TypeName → TypeSet} {given : TypeName → Option TypeSet}
  {kept kept' : TypeName → Prop} {question : Question} {q : Query} {w : Walk}

/-! ## 1. Being on the way to an answer -/

/-- The types whose set is found and still to be stored. -/
def Query.owed (q : Query) : List TypeName :=
  match q.phase with
  | .close _ members => members
  | _ => []

/-- What holds of the walk of a query in a phase. -/
def Phase.Good (layer : Layer) (known : TypeName → TypeSet) (given : TypeName → Option TypeSet)
    (kept : TypeName → Prop) (question : Question) (w : Walk) : Phase → Prop
  | .ask t => question = .ancestors t ∧ w = .empty
  | .consult t => question.Seeks layer known t ∧ w = .empty
  | .direct t => question = .supertypes t ∧ w = .empty
  | .enter t => ∃ start parts, question.Seeks layer known start ∧
      w.Sound (layer.hierarchy known given) kept start (some t) parts ∧
      t ∉ w.order ∧ given t = none ∧ (parts = [] → t = start)
  | .scan => ∃ start p below, question.Seeks layer known start ∧
      w.Sound (layer.hierarchy known given) kept start none (p :: below)
  | .close set members => ∃ start parts, question.Seeks layer known start ∧
      w.Sound (layer.hierarchy known given) kept start none parts ∧
      (parts = [] → start ∈ w.finished ∧ (layer.hierarchy known given).Denotes set start) ∧
      ∀ t ∈ members, t ∈ w.finished ∧ (layer.hierarchy known given).Denotes set t
  | .answer set => question.Answers layer known given set ∧
      ∀ t, question.Seeks layer known t → kept t

/-- A query on the way to the answer of `question`, where the memo is sure to have the types
`kept`. -/
structure Query.Good (layer : Layer) (known : TypeName → TypeSet)
    (given : TypeName → Option TypeSet) (kept : TypeName → Prop) (question : Question)
    (q : Query) : Prop where
  phase : q.phase.Good layer known given kept question q.walk
  finished : q.walk.Finished (layer.hierarchy known given) kept
  owed : ∀ t ∈ q.walk.finished, kept t ∨ t ∈ q.owed

/-- A step that leads to a query on the way to the answer, whatever it is told.  A type that is
stored was reached from the one that is sought, and its supertypes are in the memo or about to be
stored too. -/
def Step.Good (layer : Layer) (known : TypeName → TypeSet) (given : TypeName → Option TypeSet)
    (kept : TypeName → Prop) (question : Question) : Step → Prop
  | .silent next => next.Good layer known given kept question
  | .core t next => (next (known t)).1.Good layer known given kept question
  | .lookup t hit miss =>
    (∀ set, kept t → (layer.hierarchy known given).Denotes set t →
      (hit set).Good layer known given kept question) ∧
    (given t = none → miss.Good layer known given kept question)
  | .store t set next =>
    (layer.hierarchy known given).Denotes set t ∧
    (∃ start, question.Seeks layer known start ∧ (layer.hierarchy known given).Reaches start t) ∧
    (∀ s ∈ (layer.hierarchy known given).above t, kept s ∨ s = t ∨ s ∈ next.owed) ∧
    ∀ kept' : TypeName → Prop, (∀ u, kept u → kept' u) → kept' t →
      next.Good layer known given kept' question
  | .answer set => question.Answers layer known given set ∧
      ∀ t, question.Seeks layer known t → kept t

theorem Question.Seeks.unique {t u : TypeName} (ht : question.Seeks layer known t)
    (hu : question.Seeks layer known u) : t = u := by
  cases question with
  | ancestors v => exact ht.1.symm.trans hu.1
  | closure v => exact Eq.trans (Eq.symm ht) hu
  | supertypes v => exact absurd ht not_false

theorem Phase.Good.mono (hkept : ∀ t, kept t → kept' t) : ∀ {phase : Phase},
    phase.Good layer known given kept question w → phase.Good layer known given kept' question w
  | .ask _, h => h
  | .consult _, h => h
  | .direct _, h => h
  | .enter _, ⟨start, parts, hs, hw, hrest⟩ => ⟨start, parts, hs, hw.mono hkept, hrest⟩
  | .scan, ⟨start, p, below, hs, hw⟩ => ⟨start, p, below, hs, hw.mono hkept⟩
  | .close _ _, ⟨start, parts, hs, hw, hrest⟩ => ⟨start, parts, hs, hw.mono hkept, hrest⟩
  | .answer _, ⟨ha, hk⟩ => ⟨ha, fun t ht => hkept t (hk t ht)⟩

/-- **A query stays on its way while the memo grows.** -/
theorem Query.Good.mono (hkept : ∀ t, kept t → kept' t)
    (h : q.Good layer known given kept question) : q.Good layer known given kept' question :=
  ⟨h.phase.mono hkept, h.finished.mono hkept, fun t ht => (h.owed t ht).imp_left (hkept t)⟩

/-! ## 2. Where queries begin -/

theorem finished_empty {H : Hierarchy} : Walk.empty.Finished H kept := by
  constructor <;> simp [Walk.empty]

/-- A query that has not walked yet is on its way if its phase is. -/
theorem Query.Good.of_empty {phase : Phase}
    (h : phase.Good layer known given kept question Walk.empty) :
    Query.Good layer known given kept question ⟨phase, .empty⟩ :=
  ⟨h, finished_empty, fun t ht => by simp [Walk.empty] at ht⟩

/-- **Every question begins on its way.** -/
theorem good_activation (question : Question) :
    question.activation.query.Good layer known given kept question := by
  cases question with
  | ancestors t => exact .of_empty ⟨rfl, rfl⟩
  | closure t => exact .of_empty ⟨rfl, rfl⟩
  | supertypes t => exact .of_empty ⟨rfl, rfl⟩

/-! ## 3. The steps -/

/-- Going on with the direct supertypes of a type is right if it is right with those of the
hierarchy. -/
theorem fetch_good {t : TypeName} {next : TypeSet → Query}
    (h : (next ((layer.hierarchy known given).above t)).Good layer known given kept question) :
    (layer.fetch t next).Good layer known given kept question := by
  simp only [Layer.hierarchy] at h
  unfold Layer.fetch
  split
  · next declared hd =>
    rw [hd] at h
    exact h
  · next hd =>
    rw [hd] at h
    split
    · next hc =>
      simp only [hc, if_true] at h
      exact h
    · next hc =>
      simp only [hc] at h
      exact h

/-- A walk that is resumed goes on scanning where frames are left, and otherwise has its answer. -/
theorem resume_eq_answer {set : TypeSet} (hframes : w.frames = []) :
    Layer.resume w set = ⟨.answer set, w⟩ := by
  rw [Layer.resume, hframes]
  rfl

theorem resume_eq_scan {set : TypeSet} {p : Stretch} {below : List Stretch}
    (hframes : w.frames = (p :: below).map (·.frame)) : Layer.resume w set = ⟨.scan, w⟩ := by
  rw [Layer.resume, hframes]
  rfl

/-- After the set of a frame is handed on, the query goes on with the frame below, or the set is
the answer. -/
theorem resume_good {set : TypeSet} {start : TypeName} {parts : List Stretch}
    (hstart : question.Seeks layer known start)
    (hw : w.Sound (layer.hierarchy known given) kept start none parts)
    (hkept : ∀ t ∈ w.finished, kept t)
    (hset : parts = [] → start ∈ w.finished ∧ (layer.hierarchy known given).Denotes set start) :
    (Layer.resume w set).Good layer known given kept question := by
  cases parts with
  | nil =>
    obtain ⟨hfin, hden⟩ := hset rfl
    rw [resume_eq_answer hw.frames_eq]
    refine ⟨⟨hstart.answers hden, ?_⟩, hw.finished, fun t ht => .inl (hkept t ht)⟩
    intro t ht
    exact ht.unique hstart ▸ hkept start hfin
  | cons p below =>
    rw [resume_eq_scan hw.frames_eq]
    exact ⟨⟨start, p, below, hstart, hw⟩, hw.finished, fun t ht => .inl (hkept t ht)⟩

/-- The frame of a type whose low point is its own number is left by closing a component. -/
theorem leave_close {p : Stretch} (hlow : w.lowOf p.root = w.orderOf p.root)
    (hcomponent : w.component p.root = p.members) :
    Layer.leave w p.frame = ⟨.close (w.componentSet p.root p.frame.collected) p.members,
      (({ w with frames := w.frames.tail } : Walk).closeComponent p.root
        (w.componentSet p.root p.frame.collected)).yield
          (w.componentSet p.root p.frame.collected) (w.lowOf p.root)⟩ := by
  rw [← hcomponent]
  exact if_neg fun hne => hne hlow

/-- Any other frame is left by putting aside what has come together. -/
theorem leave_aside {p : Stretch} (hlow : w.lowOf p.root ≠ w.orderOf p.root) :
    Layer.leave w p.frame = Layer.resume
      ({ w with frames := w.frames.tail,
                partials := w.partials.insert p.root p.frame.collected }.yield
        p.frame.collected (w.lowOf p.root)) p.frame.collected :=
  if_pos hlow

/-- **Leaving a frame is right**: its type joins the stretch below, or its component is closed. -/
theorem leave_good {start : TypeName} {p : Stretch} {below : List Stretch}
    (hstart : question.Seeks layer known start)
    (hw : w.Sound (layer.hierarchy known given) kept start none (p :: below))
    (hkept : ∀ t ∈ w.finished, kept t) (hp : p.frame.pending = []) :
    (Layer.leave w p.frame).Good layer known given kept question := by
  -- If the low point of the root is its own number, no edge leads from the stretch to the stack
  -- below, and the component is complete; otherwise the stretch joins the one below it.
  by_cases hlow : w.lowOf p.root = w.orderOf p.root
  · have hset := fun m hm => hw.componentSet_denotes hp hlow (m := m) hm
    have hclosed := hw.closeComponent hp hlow hset
    have hcomp : ({ w with frames := w.frames.tail } : Walk).component p.root = p.members :=
      hw.component_eq
    have hmem : ∀ t, t ∈ (({ w with frames := w.frames.tail } : Walk).closeComponent p.root
        (w.componentSet p.root p.frame.collected)).finished ↔ t ∈ p.members ∨ t ∈ w.finished := by
      intro t
      rw [Walk.mem_finished_closeComponent, hcomp]
    have hroot := (hmem p.root).mpr (.inl p.root_mem_members)
    rw [leave_close hlow hw.component_eq]
    have howed : ∀ t, t ∈ p.members ∨ t ∈ w.finished → kept t ∨ t ∈ p.members :=
      fun t ht => ht.elim .inr (fun hf => .inl (hkept t hf))
    cases below with
    | nil =>
      rw [Walk.yield_nil hclosed.frames_eq]
      have hlast : p.root = start := hw.start_last p rfl
      refine ⟨⟨start, [], hstart, hclosed.of_nil, fun _ => ?_, ?_⟩, hclosed.finished, ?_⟩
      · exact hlast ▸ ⟨hroot, hset p.root p.root_mem_members⟩
      · exact fun t ht => ⟨(hmem t).mpr (.inl ht), hset t ht⟩
      · exact fun t ht => howed t ((hmem t).mp ht)
    | cons q rest =>
      have hq : w.lowOf q.root ≤ w.lowOf p.root := by
        have hle := hw.keeps.2.1.low_le
        have hlt := hw.lt_root (t := q.root) (by simp)
        omega
      have hyield := hclosed.yield hroot (hset p.root p.root_mem_members) hq
      refine ⟨⟨start, _, hstart, hyield, fun hn => absurd hn (by simp), ?_⟩, hyield.finished, ?_⟩
      · intro t ht
        rw [Walk.finished_yield]
        exact ⟨(hmem t).mpr (.inl ht), hset t ht⟩
      · intro t ht
        rw [Walk.finished_yield] at ht
        exact howed t ((hmem t).mp ht)
  · cases below with
    | nil =>
      obtain ⟨s, hs, hso, _⟩ := hw.keeps.1.low_reached
      have hle := hw.keeps.1.low_le
      have hroot := hw.root_le (t := s) (by simpa using hs)
      omega
    | cons q rest =>
      have haside := hw.setAside hp hlow
      rw [leave_aside hlow]
      refine resume_good hstart haside ?_ (fun hn => absurd hn (by simp))
      intro t ht
      rw [Walk.finished_yield] at ht
      exact hkept t ht

/-- **Scanning is right**: each supertype that is taken is put to the same tests in the same
order. -/
theorem scan_good {start : TypeName} {p : Stretch} {below : List Stretch}
    (hstart : question.Seeks layer known start)
    (hw : w.Sound (layer.hierarchy known given) kept start none (p :: below))
    (hkept : ∀ t ∈ w.finished, kept t) :
    (layer.step ⟨.scan, w⟩).Good layer known given kept question := by
  have hframes : w.frames = p.frame :: below.map (·.frame) := hw.frames_eq
  cases hpending : p.frame.pending with
  | nil =>
    have hstep : layer.step ⟨.scan, w⟩ = .silent (Layer.leave w p.frame) := by
      simp only [Layer.step, hframes, hpending]
    rw [hstep]
    exact leave_good hstart hw hkept hpending
  | cons s pending =>
    have htake := hw.take hpending
    have hfin : w.drop.finished = w.finished := by rw [Walk.drop_eq hframes]
    have hgood : ∀ {w' : Walk} {q : Stretch}, w'.finished = w.finished →
        w'.Sound (layer.hierarchy known given) kept start none (q :: below) →
        Query.Good layer known given kept question ⟨.scan, w'⟩ := by
      intro w' q hf hw'
      refine ⟨⟨start, q, below, hstart, hw'⟩, hw'.finished, fun t ht => .inl (hkept t ?_)⟩
      rw [← hf]
      exact ht
    have hcollect : ∀ set : TypeSet, (w.drop.collect set).finished = w.finished := by
      intro set
      rw [Walk.drop_eq hframes, Walk.collect_eq rfl]
    simp only [Layer.step, hframes, hpending]
    split
    · next hon =>
      exact hgood hfin (htake.lower hon)
    · next hon =>
      split
      · next set hset =>
        have hmem : s ∈ w.drop.finished := by
          rw [Std.ExtTreeMap.mem_iff_isSome_getElem?, hset]
          rfl
        exact hgood (hcollect set) (htake.collect (.inl hmem) (htake.finished.denotes s set hset))
      · next hnone =>
        have hnot : s ∉ w.drop.finished := by
          rw [Std.ExtTreeMap.mem_iff_isSome_getElem?, hnone]
          exact Bool.false_ne_true
        refine ⟨fun set hk hset => hgood (hcollect set) (htake.collect (.inr hk) hset), ?_⟩
        intro hgiven
        refine ⟨⟨start, _, hstart, htake, htake.notMem_order hon hnot, hgiven,
          fun hn => absurd hn (by simp)⟩, htake.finished, fun t ht => ?_⟩
        rw [hfin] at ht
        exact .inl (hkept t ht)

/-- **Asking the core registry first is right**: it has the whole answer, or none, and then the
memo is looked at. -/
theorem ask_good (t : TypeName) :
    (layer.step ⟨.ask t, .empty⟩).Good layer known given kept (.ancestors t) := by
  by_cases hc : layer.space.contains t = true
  · simp only [Layer.step, hc, if_true, Step.Good]
    by_cases hk : known t = ∅
    · rw [if_pos (by simpa using hk)]
      exact .of_empty ⟨⟨rfl, fun ha => ha.2 hk⟩, rfl⟩
    · rw [if_neg (by simpa using hk)]
      have hat : layer.AnswersAtOnce known t := ⟨hc, hk⟩
      refine .of_empty ⟨⟨fun _ => rfl, fun hn => absurd hat hn⟩, ?_⟩
      rintro u ⟨rfl, hn⟩
      exact absurd hat hn
  · simp only [Layer.step, hc, Step.Good]
    exact .of_empty ⟨⟨rfl, fun ha => hc ha.1⟩, rfl⟩

/-- **Storing a type of a closed component is right**, and the others are owed to the memo still. -/
theorem store_good {set : TypeSet} {members : List TypeName} {t : TypeName}
    (h : Query.Good layer known given kept question ⟨.close set (t :: members), w⟩) :
    (layer.step ⟨.close set (t :: members), w⟩).Good layer known given kept question := by
  obtain ⟨⟨start, parts, hseeks, hw, hset, hmembers⟩, hfin, howed⟩ := h
  have ht := hmembers t List.mem_cons_self
  have hreached := hw.reached t ((hw.entered_iff t).mpr (.inr ht.1))
  refine ⟨ht.2, ⟨start, hseeks, hreached⟩, ?_, ?_⟩
  · intro s hs
    rcases hfin.above t ht.1 s hs with hf | hk
    · exact (howed s hf).imp_right List.mem_cons.mp
    · exact .inl hk
  · intro kept' hmono hkept
    refine ⟨⟨start, parts, hseeks, hw.mono hmono, hset,
      fun u hu => hmembers u (List.mem_cons_of_mem t hu)⟩, hfin.mono hmono, ?_⟩
    intro u hu
    rcases howed u hu with hk | ho
    · exact .inl (hmono u hk)
    · rcases List.mem_cons.mp ho with rfl | ho
      · exact .inl hkept
      · exact .inr ho

/-- **Every step of a query is right.** -/
theorem step_good (h : q.Good layer known given kept question) :
    (layer.step q).Good layer known given kept question := by
  obtain ⟨phase, w⟩ := q
  obtain ⟨hphase, hfin, howed⟩ := h
  cases phase with
  | ask t =>
    obtain ⟨rfl, rfl⟩ := hphase
    exact ask_good t
  | consult t =>
    obtain ⟨hseeks, rfl⟩ := hphase
    refine ⟨fun set hk hset => .of_empty ⟨hseeks.answers hset, ?_⟩, fun hgiven => .of_empty ?_⟩
    · intro u hu
      exact hu.unique hseeks ▸ hk
    · exact ⟨t, [], hseeks, Walk.sound_empty t, by simp [Walk.empty], hgiven, fun _ => rfl⟩
  | direct t =>
    obtain ⟨rfl, rfl⟩ := hphase
    exact fetch_good (.of_empty ⟨rfl, fun u hu => absurd hu not_false⟩)
  | enter t =>
    obtain ⟨start, parts, hseeks, hw, hfresh, hgiven, hstart⟩ := hphase
    refine fetch_good ?_
    have hlist : ∀ s, s ∈ layer.arrangement.list t ((layer.hierarchy known given).above t) ↔
        s ∈ (layer.hierarchy known given).above t := by
      intro s
      rw [(layer.arrangement.perm _ _).mem_iff, Std.ExtTreeSet.mem_toList]
    have henter := hw.enter hfresh hgiven hstart hlist
    exact ⟨⟨start, _, _, hseeks, henter⟩, henter.finished, howed⟩
  | scan =>
    obtain ⟨start, p, below, hseeks, hw⟩ := hphase
    exact scan_good hseeks hw fun t ht =>
      (howed t ht).elim id fun hn => absurd hn (by simp [Query.owed])
  | close set members =>
    cases members with
    | nil =>
      obtain ⟨start, parts, hseeks, hw, hset, _⟩ := hphase
      refine resume_good hseeks hw ?_ hset
      exact fun t ht => (howed t ht).elim id fun hn => absurd hn (by simp [Query.owed])
    | cons t members => exact store_good ⟨hphase, hfin, howed⟩
  | answer set => exact hphase

end Ancestry.Closure
