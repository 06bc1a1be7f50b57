import Mathlib.Algebra.GroupWithZero.Nat
import Ancestry.Proofs.Query.Sound

/-!
# How long a query takes

`Query.turnsLeft` bounds the turns that a query still needs, where every event takes a turn more for
its delivery.  It is measured against a list of names that is closed upward: a walk enters no type
twice, takes each supertype once, leaves each frame once and stores each type once, so every type
that is not entered yet counts for the `2 * n + 6` turns that it may still cause, `n` being the
length of the list.  `step_within` says that the bound goes down with each step by the turns which
the step takes.
-/

namespace Ancestry.Closure

open Stretch

variable {layer : Layer} {known : TypeName → TypeSet} {given : TypeName → Option TypeSet}
  {kept : TypeName → Prop} {question : Question} {q : Query} {w : Walk} {names : List TypeName}
  {t : TypeName}

/-! ## 1. The turns that are left -/

namespace Walk

/-- The names of types that are not entered yet. -/
def unentered (names : List TypeName) (w : Walk) : List TypeName :=
  names.filter fun t => t ∉ w.order

/-- The turns still needed for the types that are entered: two for each supertype to be taken, two
for each frame and two for each type on the stack. -/
def unfinished (w : Walk) : Nat :=
  (w.frames.map fun f => 2 * f.pending.length + 2).sum + 2 * w.stack.length

/-- The turns still needed for a walk. -/
def turnsLeft (names : List TypeName) (w : Walk) : Nat :=
  (w.unentered names).length * (2 * names.length + 6) + w.unfinished

end Walk

/-- The turns still needed for a query. -/
def Query.turnsLeft (names : List TypeName) (q : Query) : Nat :=
  match q.phase with
  | .ask _ => q.walk.turnsLeft names + 5
  | .consult _ => q.walk.turnsLeft names + 3
  | .direct _ => 3
  | .enter _ | .scan => q.walk.turnsLeft names + 1
  | .close _ members => q.walk.turnsLeft names + 2 * members.length + 2
  | .answer _ => 1

/-- A step after which fewer than `n` turns are needed, by the one that it takes and the one in
which its event is delivered. -/
def Step.Within (names : List TypeName) (known : TypeName → TypeSet) (n : Nat) : Step → Prop
  | .silent next => next.turnsLeft names + 1 ≤ n
  | .core t next => (next (known t)).1.turnsLeft names + 2 ≤ n
  | .lookup _ hit miss =>
    (∀ set, (hit set).turnsLeft names + 2 ≤ n) ∧ miss.turnsLeft names + 2 ≤ n
  | .store _ _ next => next.turnsLeft names + 2 ≤ n
  | .answer _ => 1 ≤ n

/-- A list of names closed upward that has the type which a question seeks. -/
structure Question.Covered (layer : Layer) (known : TypeName → TypeSet)
    (given : TypeName → Option TypeSet) (names : List TypeName) (question : Question) : Prop where
  start : ∀ t, question.Seeks layer known t → t ∈ names
  closed : ∀ t ∈ names, ∀ s ∈ (layer.hierarchy known given).above t, s ∈ names

theorem Question.Covered.reached {start : TypeName}
    (h : question.Covered layer known given names) (hstart : question.Seeks layer known start)
    (hr : (layer.hierarchy known given).Reaches start t) : t ∈ names := by
  induction hr with
  | refl => exact h.start _ hstart
  | tail _ hlead ih => exact h.closed _ ih _ hlead.2

/-! ## 2. What the operations of a walk do to them -/

namespace Walk

/-- A walk that has not entered anything needs the turns of all names. -/
theorem turnsLeft_empty :
    Walk.empty.turnsLeft names = names.length * (2 * names.length + 6) := by
  have hall : Walk.empty.unentered names = names :=
    List.filter_eq_self.mpr fun u _ => by simp [empty]
  rw [turnsLeft, hall]
  rfl

/-- Entering a type uses up one name at least. -/
theorem unentered_enter (isCore : Bool) (supertypes : List TypeName) (ht : t ∈ names)
    (hfresh : t ∉ w.order) :
    ((w.enter t isCore supertypes).unentered names).length + 1 ≤ (w.unentered names).length := by
  have hfilter : (w.enter t isCore supertypes).unentered names =
      (w.unentered names).filter (fun u => u ≠ t) := by
    rw [unentered, unentered, List.filter_filter]
    refine List.filter_congr fun u _ => ?_
    simp only [mem_order_enter, not_or, Bool.decide_and, ne_eq]
  have hmem : t ∈ w.unentered names := List.mem_filter.mpr ⟨ht, by simpa using hfresh⟩
  rw [hfilter]
  exact List.length_filter_lt_length_iff_exists.mpr ⟨t, hmem, by simp⟩

/-- Entering a type takes the turns of one name, but for two. -/
theorem turnsLeft_enter {isCore : Bool} {supertypes : List TypeName} (ht : t ∈ names)
    (hfresh : t ∉ w.order) (hlen : supertypes.length ≤ names.length) :
    (w.enter t isCore supertypes).turnsLeft names + 2 ≤ w.turnsLeft names := by
  have hun := unentered_enter isCore supertypes ht hfresh
  have hmul := Nat.mul_le_mul_right (2 * names.length + 6) hun
  have hfin : (w.enter t isCore supertypes).unfinished =
      w.unfinished + 2 * supertypes.length + 4 := by
    simp only [unfinished, enter, List.map_cons, List.sum_cons, List.length_cons]
    omega
  simp only [turnsLeft, hfin]
  rw [Nat.add_mul, Nat.one_mul] at hmul
  omega

/-- Where no type is entered, only the turns for the entered types change. -/
theorem turnsLeft_le {w' : Walk} {n : Nat} (horder : w'.order = w.order)
    (hfin : w'.unfinished + n ≤ w.unfinished) : w'.turnsLeft names + n ≤ w.turnsLeft names := by
  have hun : w'.unentered names = w.unentered names := by rw [unentered, horder]; rfl
  simp only [turnsLeft, hun]
  omega

/-- Closing a component takes up two turns for each type that leaves the stack. -/
theorem unfinished_closeComponent (set : TypeSet) {root : TypeName} {n : Nat}
    (h : (w.closeComponent root set).stack.length + n = w.stack.length) :
    (w.closeComponent root set).unfinished + 2 * n = w.unfinished := by
  have hframes : (w.closeComponent root set).frames = w.frames := rfl
  simp only [unfinished, hframes]
  omega

/-- Handing a set on needs no further turns. -/
theorem turnsLeft_yield {set : TypeSet} {n : Nat} :
    (w.yield set n).turnsLeft names = w.turnsLeft names := by
  cases hf : w.frames with
  | nil => rw [yield_nil hf]
  | cons f rest =>
    rw [yield_eq hf, collect_eq hf]
    simp only [turnsLeft, unentered, unfinished, lower, hf]
    rfl

end Walk

/-! ## 3. The steps -/

theorem fetch_within (given : TypeName → Option TypeSet) {next : TypeSet → Query} {n : Nat}
    (h : (next ((layer.hierarchy known given).above t)).turnsLeft names + 2 ≤ n) :
    (layer.fetch t next).Within names known n := by
  simp only [Layer.hierarchy] at h
  unfold Layer.fetch
  split
  · next declared hd =>
    rw [hd] at h
    exact Nat.le_of_succ_le h
  · next hd =>
    rw [hd] at h
    split
    · next hc =>
      simp only [hc, if_true] at h
      exact h
    · next hc =>
      simp only [hc] at h
      exact Nat.le_of_succ_le h

theorem resume_turnsLeft {set : TypeSet} :
    (Layer.resume w set).turnsLeft names ≤ w.turnsLeft names + 1 := by
  unfold Layer.resume
  by_cases hf : w.frames.isEmpty = true
  · rw [if_pos hf]
    exact Nat.le_add_left 1 _
  · rw [if_neg hf]
    exact Nat.le_refl _

/-- Leaving a frame takes up the two turns that the frame counted for. -/
theorem leave_turnsLeft {start : TypeName} {p : Stretch} {below : List Stretch}
    (hw : w.Sound (layer.hierarchy known given) kept start none (p :: below))
    (hp : p.frame.pending = []) :
    (Layer.leave w p.frame).turnsLeft names ≤ w.turnsLeft names := by
  have hframes : w.frames = p.frame :: below.map (·.frame) := hw.frames_eq
  have htail : w.unfinished =
      ({ w with frames := w.frames.tail } : Walk).unfinished + 2 := by
    simp only [Walk.unfinished, hframes, List.map_cons, List.sum_cons, hp, List.length_nil,
      List.tail_cons]
    omega
  by_cases hlow : w.lowOf p.root ≠ w.orderOf p.root
  · rw [leave_aside hlow]
    refine Nat.le_trans resume_turnsLeft ?_
    rw [Walk.turnsLeft_yield]
    refine Walk.turnsLeft_le rfl ?_
    rw [htail]
    exact Nat.add_le_add_left (by decide) _
  · rw [leave_close (not_not.mp hlow) hw.component_eq]
    have hstack := congrArg List.length
      (hw.stack_closeComponent (w.componentSet p.root p.frame.collected))
    have hlen : (w.closeComponent p.root (w.componentSet p.root p.frame.collected)).stack.length +
        p.members.length = w.stack.length := by
      rw [hstack, hw.stack_eq, spread_cons, List.length_append, Nat.add_comm]
    have hclosed := Walk.unfinished_closeComponent (w := { w with frames := w.frames.tail })
      (w.componentSet p.root p.frame.collected) hlen
    simp only [Query.turnsLeft]
    rw [Walk.turnsLeft_yield, Nat.add_assoc]
    refine Walk.turnsLeft_le rfl (Nat.le_of_eq ?_)
    rw [htail, ← hclosed]
    rfl

/-- Scanning takes two turns for a supertype, or two for leaving the frame. -/
theorem scan_within {start : TypeName} {p : Stretch} {below : List Stretch}
    (hw : w.Sound (layer.hierarchy known given) kept start none (p :: below)) :
    (layer.step ⟨.scan, w⟩).Within names known (w.turnsLeft names + 1) := by
  have hframes : w.frames = p.frame :: below.map (·.frame) := hw.frames_eq
  cases hpending : p.frame.pending with
  | nil =>
    have hstep : layer.step ⟨.scan, w⟩ = .silent (Layer.leave w p.frame) := by
      simp only [Layer.step, hframes, hpending]
    rw [hstep]
    exact Nat.succ_le_succ (leave_turnsLeft hw hpending)
  | cons s pending =>
    have hdrop : w.drop.turnsLeft names + 2 ≤ w.turnsLeft names := by
      rw [Walk.drop_eq hframes]
      refine Walk.turnsLeft_le rfl ?_
      simp only [Walk.unfinished, hframes, hpending, List.map_cons, List.sum_cons,
        List.length_cons, List.tail_cons]
      omega
    have hcollect : ∀ set : TypeSet,
        (w.drop.collect set).turnsLeft names = w.drop.turnsLeft names := by
      intro set
      rw [Walk.drop_eq hframes, Walk.collect_eq rfl]
      rfl
    simp only [Layer.step, hframes, hpending]
    split
    · show w.drop.turnsLeft names + 1 + 1 ≤ w.turnsLeft names + 1
      omega
    · split
      · show (w.drop.collect _).turnsLeft names + 1 + 1 ≤ w.turnsLeft names + 1
        rw [hcollect]
        omega
      · refine ⟨fun set => ?_, ?_⟩
        · show (w.drop.collect set).turnsLeft names + 1 + 2 ≤ w.turnsLeft names + 1
          rw [hcollect]
          omega
        · show w.drop.turnsLeft names + 1 + 2 ≤ w.turnsLeft names + 1
          omega

/-- The type that a walk is about to enter can be reached from where the walk began. -/
theorem enter_reached {start : TypeName} {parts : List Stretch}
    (hw : w.Sound (layer.hierarchy known given) kept start (some t) parts)
    (hstart : parts = [] → t = start) : (layer.hierarchy known given).Reaches start t := by
  cases parts with
  | nil => exact hstart rfl ▸ .refl
  | cons p below =>
    have hroot : p.root ∈ w.order := by
      rw [hw.entered_iff, hw.stack_eq]
      simp
    exact (hw.reached _ hroot).tail hw.keeps.1.leads

/-- The type that a walk is about to enter is among the names. -/
theorem enter_mem_names {start : TypeName} {parts : List Stretch}
    (hnames : question.Covered layer known given names)
    (hseeks : question.Seeks layer known start)
    (hw : w.Sound (layer.hierarchy known given) kept start (some t) parts)
    (hstart : parts = [] → t = start) : t ∈ names :=
  hnames.reached hseeks (enter_reached hw hstart)

/-- **With each step, a query needs fewer turns**, by those which the step takes. -/
theorem step_within (hnames : question.Covered layer known given names)
    (h : q.Good layer known given kept question) :
    (layer.step q).Within names known (q.turnsLeft names) := by
  obtain ⟨phase, w⟩ := q
  cases phase with
  | ask t =>
    by_cases hc : layer.space.contains t = true
    · simp only [Layer.step, hc, if_true, Step.Within]
      split
      · exact Nat.le_refl _
      · exact Nat.le_add_left 3 _
    · simp only [Layer.step, hc, Step.Within]
      exact Nat.le_succ _
  | consult t =>
    exact ⟨fun set => Nat.le_add_left 3 _, Nat.le_refl _⟩
  | direct t => exact fetch_within given (Nat.le_refl 3)
  | enter t =>
    obtain ⟨start, parts, hseeks, hw, hfresh, _, hstart⟩ := h.phase
    have ht := enter_mem_names hnames hseeks hw hstart
    refine fetch_within given ?_
    -- The listing has no repetitions and stays among the names, so it is no longer than they are.
    have hperm := layer.arrangement.perm t ((layer.hierarchy known given).above t)
    have hnodup := hperm.nodup_iff.mpr (TypeSet.nodup_toList _)
    have hsub : layer.arrangement.list t ((layer.hierarchy known given).above t) ⊆ names :=
      fun s hs => hnames.closed t ht s (Std.ExtTreeSet.mem_toList.mp (hperm.mem_iff.mp hs))
    have hlen := hnodup.length_le_of_subset hsub
    exact Nat.succ_le_succ (Walk.turnsLeft_enter ht hfresh hlen)
  | scan =>
    obtain ⟨start, p, below, _, hw⟩ := h.phase
    exact scan_within hw
  | close set members =>
    cases members with
    | nil => exact Nat.succ_le_succ resume_turnsLeft
    | cons t members =>
      show w.turnsLeft names + 2 * members.length + 2 + 2 ≤
        w.turnsLeft names + 2 * (members.length + 1) + 2
      omega
  | answer set => exact Nat.le_refl 1

/-- A query needs a turn at least. -/
theorem one_le_turnsLeft : 1 ≤ q.turnsLeft names := by
  unfold Query.turnsLeft
  split <;> omega

end Ancestry.Closure
