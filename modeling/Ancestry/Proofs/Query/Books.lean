import Mathlib.Data.List.Basic
import Ancestry.Proofs.Query.Sound

/-!
# The books of a query

A walk opens types, meets supertypes whose set is given, misses others and stores the types whose
component is closed.  Each of these is entered once and settled once: a type that is missed is
coming (`Query.coming`) until it is opened; a type that is opened is not stored (`Query.unstored`)
until it is stored, and its supertypes are due (`Query.due`) until they are taken.  `Query.Goes`
says that nothing is lost on the way from one query to the next and nothing comes in twice, and
`step_books` that this is so with every step.
-/

namespace Ancestry.Closure

open Stretch

/-! ## 1. What is entered in the books -/

/-- The direct supertypes of a type whose set is given. -/
def Hierarchy.ready (H : Hierarchy) (t : TypeName) : List TypeName :=
  (H.above t).toList.filter fun s => (H.given s).isSome

/-- A walk that opens the type asks the core registry for its direct supertypes. -/
def Layer.consults (layer : Layer) (t : TypeName) : Bool :=
  layer.space.contains t && (layer.index.get? t).isNone

/-- The type is a core type of which nothing is known. -/
def Layer.unknown (layer : Layer) (known : TypeName → TypeSet) (t : TypeName) : Bool :=
  layer.consults t && (known t).isEmpty

/-- The supertypes with a given set that are still to be taken. -/
def Walk.due (given : TypeName → Option TypeSet) (w : Walk) : List TypeName :=
  w.frames.flatMap fun f => f.pending.filter fun s => (given s).isSome

namespace Query

/-- The type that was missed and is not opened yet. -/
def coming (q : Query) : List TypeName :=
  match q.phase with
  | .enter t => [t]
  | _ => []

/-- The types that were opened and are not stored yet. -/
def unstored (q : Query) : List TypeName :=
  match q.phase with
  | .answer _ => []
  | _ => q.owed ++ q.walk.stack

/-- The supertypes with a given set that are still to be taken. -/
def due (given : TypeName → Option TypeSet) (q : Query) : List TypeName :=
  match q.phase with
  | .answer _ => []
  | _ => q.walk.due given

/-- The query walks, or has walked. -/
def Walking (q : Query) : Prop :=
  match q.phase with
  | .enter _ | .scan | .close .. | .answer _ => True
  | _ => False

/-- The query goes on as `q'`: the types `opens` are opened, the supertypes `meets` are met, the
types `misses` are missed and the types `stores` are stored. -/
structure Goes (H : Hierarchy) (start : TypeName) (q q' : Query)
    (opens meets misses stores : List TypeName) : Prop where
  walking : q'.Walking
  order : ∀ t, t ∈ q'.walk.order ↔ t ∈ opens ∨ t ∈ q.walk.order
  fresh : (∀ t ∈ opens, t ∉ q.walk.order) ∧ opens.Nodup
  reached : ∀ t ∈ opens, H.Reaches start t ∧ H.given t = none
  coming : (q'.coming ++ opens).Perm (misses ++ q.coming)
  unstored : (stores ++ q'.unstored).Perm (opens ++ q.unstored)
  due : (meets ++ q'.due H.given).Perm (opens.flatMap H.ready ++ q.due H.given)
  owed : ∀ t ∈ q.owed, t ∈ stores ∨ t ∈ q'.owed

end Query

variable {layer : Layer} {known : TypeName → TypeSet} {given : TypeName → Option TypeSet}
  {kept : TypeName → Prop} {question : Question} {q : Query} {w : Walk} {start t : TypeName}
  {set : TypeSet} {H : Hierarchy}

/-- A step whose effects are entered in the books. -/
def Step.Books (layer : Layer) (known : TypeName → TypeSet) (given : TypeName → Option TypeSet)
    (start : TypeName) (q : Query) : Step → Prop
  | .silent next => ∃ opens, (∀ t ∈ opens, layer.consults t = false) ∧
      q.Goes (layer.hierarchy known given) start next opens [] [] []
  | .core t next => layer.consults t = true ∧
      (next (known t)).2 = (if (known t).isEmpty then some .coreUnknown else none) ∧
      q.Goes (layer.hierarchy known given) start (next (known t)).1 [t] [] [] []
  | .lookup t hit miss => t ∉ q.walk.order ∧
      (∀ set, given t ≠ none → q.Goes (layer.hierarchy known given) start (hit set) [] [t] [] []) ∧
      (given t = none → q.Goes (layer.hierarchy known given) start miss [] [] [t] [])
  | .store t _ next => q.Goes (layer.hierarchy known given) start next [] [] [] [t]
  | .answer _ => q.coming = [] ∧ q.unstored = [] ∧ q.due given = []

/-! ## 2. What the operations of a walk do to what is due -/

namespace Walk

/-- What is due is what is pending in the frames and given already. -/
theorem due_cons {f : Frame} {rest : List Frame} (hf : w.frames = f :: rest) :
    w.due given = f.pending.filter (fun s => (given s).isSome) ++
      rest.flatMap fun f => f.pending.filter fun s => (given s).isSome := by
  rw [due, hf, List.flatMap_cons]

@[simp] theorem due_collect : (w.collect set).due given = w.due given := by
  cases hf : w.frames with
  | nil => simp [due, collect, hf]
  | cons f rest => simp [due, collect, hf]

@[simp] theorem due_lower {n : Nat} : (w.lower t n).due given = w.due given := rfl

@[simp] theorem due_yield {n : Nat} : (w.yield set n).due given = w.due given := by
  cases hf : w.frames with
  | nil => rw [yield_nil hf]
  | cons f rest => rw [yield_eq hf, due_lower, due_collect]

@[simp] theorem stack_collect : (w.collect set).stack = w.stack := by
  unfold collect
  split <;> rfl

@[simp] theorem order_collect : (w.collect set).order = w.order := by
  unfold collect
  split <;> rfl

@[simp] theorem stack_yield {n : Nat} : (w.yield set n).stack = w.stack := by
  unfold yield
  split
  · rfl
  · exact stack_collect

@[simp] theorem order_yield {n : Nat} : (w.yield set n).order = w.order := by
  unfold yield
  split
  · rfl
  · exact order_collect

@[simp] theorem stack_drop : w.drop.stack = w.stack := by
  unfold drop
  split <;> rfl

@[simp] theorem order_drop : w.drop.order = w.order := by
  unfold drop
  split <;> rfl

/-- A type on the stack has no given set. -/
theorem KeepsAll.unset : ∀ {awaited : Option TypeName} {parts : List Stretch},
    w.KeepsAll H kept awaited parts → ∀ t ∈ spread parts, H.given t = none
  | _, [], _, t, ht => absurd ht (by simp)
  | _, p :: below, h, t, ht => by
    rcases List.mem_append.mp ht with ht | ht
    · rcases Stretch.mem_members.mp ht with ht | rfl
      · exact (h.1.ended t ht).unset
      · exact h.1.frame.unset
    · exact h.2.unset t ht

end Walk

/-! ## 3. The steps -/

/-- Nothing is entered when a query goes on with the same walk, but for what is not in the books. -/
theorem goes_alike {q' : Query} (hwalking : q'.Walking) (horder : q'.walk.order = q.walk.order)
    (hcoming : q.coming = []) (hcoming' : q'.coming = [])
    (hunstored : q'.unstored.Perm q.unstored) (hdue : q'.due H.given = q.due H.given)
    (howed : ∀ t ∈ q.owed, t ∈ q'.owed) : q.Goes H start q' [] [] [] [] := by
  refine ⟨hwalking, ?_, ⟨fun t ht => absurd ht List.not_mem_nil, .nil⟩,
    fun t ht => absurd ht List.not_mem_nil, ?_, hunstored, ?_, fun t ht => .inr (howed t ht)⟩
  · intro t
    rw [horder]
    simp
  · rw [hcoming, hcoming']
  · rw [hdue]
    exact .refl _

/-- After a frame is left, its supertypes are no longer due, for there were none. -/
theorem due_tail {p : Stretch} {below : List Stretch}
    (hf : w.frames = p.frame :: below.map (·.frame)) (hp : p.frame.pending = []) :
    ({ w with frames := w.frames.tail } : Walk).due given = w.due given := by
  rw [Walk.due_cons hf, hp]
  simp [Walk.due, hf]

/-- Nothing comes on the books when a walk is resumed, whether it goes on with a frame or has its
answer. -/
theorem resume_goes {parts : List Stretch} (hq : q.coming = [])
    (hw : w.Sound H kept start none parts) (horder : w.order = q.walk.order)
    (hunstored : q.unstored = w.stack) (hdue : q.due H.given = w.due H.given)
    (howed : q.owed = []) : q.Goes H start (Layer.resume w set) [] [] [] [] := by
  have hnone : ∀ t ∈ q.owed, t ∈ (Layer.resume w set).owed := by
    intro t ht
    rw [howed] at ht
    exact absurd ht List.not_mem_nil
  cases parts with
  | nil =>
    -- The last frame is left, so the stack is empty and nothing is due.
    have hframes : w.frames = [] := hw.frames_eq
    have hstack : w.stack = [] := hw.stack_eq
    rw [resume_eq_answer hframes] at hnone ⊢
    refine goes_alike trivial horder hq rfl ?_ ?_ hnone
    · rw [hunstored, hstack]
      exact .refl _
    · rw [hdue]
      simp [Query.due, Walk.due, hframes]
  | cons p below =>
    rw [resume_eq_scan hw.frames_eq] at hnone ⊢
    refine goes_alike trivial horder hq rfl ?_ hdue.symm hnone
    rw [hunstored]
    exact .refl _

/-- Leaving a frame opens, meets and stores nothing. -/
theorem leave_goes {p : Stretch} {below : List Stretch}
    (hw : w.Sound (layer.hierarchy known given) kept start none (p :: below))
    (hp : p.frame.pending = []) :
    Query.Goes (layer.hierarchy known given) start ⟨.scan, w⟩ (Layer.leave w p.frame)
      [] [] [] [] := by
  have hframes : w.frames = p.frame :: below.map (·.frame) := hw.frames_eq
  by_cases hlow : w.lowOf p.root = w.orderOf p.root
  · have hcomp : ({ w with frames := w.frames.tail } : Walk).component p.root = p.members :=
      hw.component_eq
    have hstack := hw.stack_closeComponent (w.componentSet p.root p.frame.collected)
    rw [leave_close hlow hw.component_eq]
    refine goes_alike trivial ?_ rfl rfl ?_ ?_ (fun t ht => absurd ht List.not_mem_nil)
    · exact Walk.order_yield
    · -- The types that leave the stack are those whose set is owed to the memo.
      show (p.members ++ (Walk.yield _ _ _).stack).Perm ([] ++ w.stack)
      rw [Walk.stack_yield]
      exact .of_eq ((congrArg (p.members ++ ·) hstack).trans hw.stack_eq.symm)
    · show (Walk.yield _ _ _).due given = w.due given
      rw [Walk.due_yield]
      exact due_tail hframes hp
  · cases below with
    | nil =>
      obtain ⟨s, hs, hso, _⟩ := hw.keeps.1.low_reached
      have hle := hw.keeps.1.low_le
      have hroot := hw.root_le (t := s) (by simpa using hs)
      omega
    | cons r rest =>
      have haside := hw.setAside hp hlow
      rw [leave_aside hlow]
      refine resume_goes rfl haside Walk.order_yield ?_ ?_ rfl
      · show [] ++ w.stack = _
        rw [List.nil_append, Walk.stack_yield]
      · rw [Walk.due_yield]
        exact (due_tail hframes hp).symm

/-- A supertype that is taken is no longer due, if it was. -/
theorem Walk.due_drop {f : Frame} {rest : List Frame} {pending : List TypeName}
    (hf : w.frames = f :: rest) (hp : f.pending = t :: pending) :
    w.due given = (if (given t).isSome then [t] else []) ++ w.drop.due given := by
  rw [Walk.due_cons hf, Walk.drop_eq hf, hp]
  cases hg : (given t).isSome <;> simp [Walk.due, hg]

/-- Nothing is entered when a supertype is taken whose set is not given, and which is not looked
up. -/
theorem goes_taken {w' : Walk} (horder : w'.order = w.order) (hstack : w'.stack = w.stack)
    (hdue : w'.due H.given = w.due H.given) :
    Query.Goes H start ⟨.scan, w⟩ ⟨.scan, w'⟩ [] [] [] [] := by
  refine goes_alike trivial horder rfl rfl ?_ hdue (fun t ht => ht)
  show ([] ++ w'.stack).Perm ([] ++ w.stack)
  rw [hstack]

/-- A supertype is met that was due. -/
theorem goes_met {w' : Walk} (horder : w'.order = w.order) (hstack : w'.stack = w.stack)
    (hdue : w.due H.given = [t] ++ w'.due H.given) :
    Query.Goes H start ⟨.scan, w⟩ ⟨.scan, w'⟩ [] [t] [] [] := by
  refine ⟨trivial, ?_, ⟨fun u hu => absurd hu List.not_mem_nil, .nil⟩,
    fun u hu => absurd hu List.not_mem_nil, .refl _, ?_, ?_, fun u hu => .inr hu⟩
  · intro u
    rw [horder]
    simp
  · show ([] ++ w'.stack).Perm ([] ++ w.stack)
    rw [hstack]
  · show ([t] ++ w'.due H.given).Perm ([] ++ w.due H.given)
    rw [hdue]
    exact .refl _

/-- A supertype is missed, and is coming. -/
theorem goes_missed {w' : Walk} (horder : w'.order = w.order) (hstack : w'.stack = w.stack)
    (hdue : w'.due H.given = w.due H.given) :
    Query.Goes H start ⟨.scan, w⟩ ⟨.enter t, w'⟩ [] [] [t] [] := by
  refine ⟨trivial, ?_, ⟨fun u hu => absurd hu List.not_mem_nil, .nil⟩,
    fun u hu => absurd hu List.not_mem_nil, .refl _, ?_, ?_, fun u hu => .inr hu⟩
  · intro u
    rw [horder]
    simp
  · show ([] ++ w'.stack).Perm ([] ++ w.stack)
    rw [hstack]
  · show ([] ++ w'.due H.given).Perm ([] ++ w.due H.given)
    rw [hdue]

/-- Scanning takes one supertype, which is met if its set is given. -/
theorem scan_books {p : Stretch} {below : List Stretch}
    (hw : w.Sound (layer.hierarchy known given) kept start none (p :: below)) :
    (layer.step ⟨.scan, w⟩).Books layer known given start ⟨.scan, w⟩ := by
  have hframes : w.frames = p.frame :: below.map (·.frame) := hw.frames_eq
  cases hpending : p.frame.pending with
  | nil =>
    have hstep : layer.step ⟨.scan, w⟩ = .silent (Layer.leave w p.frame) := by
      simp only [Layer.step, hframes, hpending]
    rw [hstep]
    exact ⟨[], fun t ht => absurd ht List.not_mem_nil, leave_goes hw hpending⟩
  | cons s pending =>
    have htake := hw.take hpending
    have hdue : w.due given = (if (given s).isSome then [s] else []) ++ w.drop.due given :=
      Walk.due_drop hframes hpending
    have hungiven : given s = none → w.drop.due given = w.due given := by
      intro hnone
      rw [hdue, hnone]
      rfl
    simp only [Layer.step, hframes, hpending]
    split
    · next hon =>
      have hmem : s ∈ spread (p :: below) := by
        rw [← hw.stack_eq, ← hw.mem_onStack]
        rwa [Walk.drop_eq hframes] at hon
      exact ⟨[], fun t ht => absurd ht List.not_mem_nil,
        goes_taken Walk.order_drop Walk.stack_drop (hungiven (hw.keeps.unset s hmem))⟩
    · next hon =>
      split
      · next set hset =>
        have hmem : s ∈ w.drop.finished := by
          rw [Std.ExtTreeMap.mem_iff_isSome_getElem?, hset]
          rfl
        exact ⟨[], fun t ht => absurd ht List.not_mem_nil, goes_taken (by simp) (by simp)
          (Walk.due_collect.trans (hungiven (htake.finished.unset s hmem)))⟩
      · next hnone =>
        have hnot : s ∉ w.drop.finished := by
          rw [Std.ExtTreeMap.mem_iff_isSome_getElem?, hnone]
          exact Bool.false_ne_true
        have hfresh := htake.notMem_order hon hnot
        rw [Walk.order_drop] at hfresh
        refine ⟨hfresh, fun set hgiven => ?_, fun hgiven => ?_⟩
        · rw [if_pos (Option.isSome_iff_ne_none.mpr hgiven)] at hdue
          exact goes_met (by simp) (by simp) (hdue.trans (congrArg _ Walk.due_collect.symm))
        · exact goes_missed Walk.order_drop Walk.stack_drop (hungiven hgiven)

/-- What is fetched for a type are its direct supertypes, and who is asked depends on the type
alone. -/
theorem fetch_eq (layer : Layer) (known : TypeName → TypeSet) (given : TypeName → Option TypeSet)
    (t : TypeName) (next : TypeSet → Query) :
    (layer.consults t = false ∧
      layer.fetch t next = .silent (next ((layer.hierarchy known given).above t))) ∨
    (layer.consults t = true ∧ (layer.hierarchy known given).above t = known t ∧
      layer.fetch t next = .core t fun set =>
        (next set, if set.isEmpty then some .coreUnknown else none)) := by
  simp only [Layer.fetch, Layer.consults, Layer.hierarchy]
  cases layer.index.get? t with
  | some declared => exact .inl ⟨by simp, rfl⟩
  | none =>
    cases layer.space.contains t with
    | true => exact .inr ⟨rfl, rfl, rfl⟩
    | false => exact .inl ⟨rfl, rfl⟩

/-- Opening a type makes its supertypes due, and the type itself is to be stored. -/
theorem enter_goes {parts : List Stretch} {supertypes : List TypeName} (isCore : Bool)
    (hw : w.Sound H kept start (some t) parts)
    (hfresh : t ∉ w.order) (hgiven : H.given t = none) (hstart : parts = [] → t = start)
    (hperm : supertypes.Perm (H.above t).toList) :
    Query.Goes H start ⟨.enter t, w⟩ ⟨.scan, w.enter t isCore supertypes⟩ [t] [] [] [] := by
  refine ⟨trivial, ?_, ⟨?_, List.pairwise_singleton _ t⟩, ?_, .refl _, .refl _, ?_,
    fun u hu => absurd hu List.not_mem_nil⟩
  · intro u
    show u ∈ (w.enter t isCore supertypes).order ↔ _
    rw [Walk.mem_order_enter, List.mem_singleton]
  · intro u hu
    rw [List.mem_singleton.mp hu]
    exact hfresh
  · intro u hu
    rw [List.mem_singleton.mp hu]
    refine ⟨?_, hgiven⟩
    cases parts with
    | nil => exact hstart rfl ▸ .refl
    | cons p below =>
      have hroot : p.root ∈ w.order := by
        rw [hw.entered_iff, hw.stack_eq]
        simp
      exact (hw.reached _ hroot).tail hw.keeps.1.leads
  · show ([] ++ (w.enter t isCore supertypes).due H.given).Perm _
    rw [List.nil_append, Walk.due_cons (w := w.enter t isCore supertypes) rfl,
      List.flatMap_singleton]
    exact (hperm.filter _).append_right _

/-- **Every step of a walk is entered in the books**: what it opens, meets, misses or stores was
outstanding before it, or is afterwards. -/
theorem step_books (h : q.Good layer known given kept question) (hwalking : q.Walking)
    (hstart : question.Seeks layer known start) :
    (layer.step q).Books layer known given start q := by
  obtain ⟨phase, w⟩ := q
  cases phase with
  | ask t => exact absurd hwalking not_false
  | consult t => exact absurd hwalking not_false
  | direct t => exact absurd hwalking not_false
  | enter t =>
    obtain ⟨start', parts, hseeks, hw, hfresh, hgiven, hnil⟩ := h.phase
    cases hseeks.unique hstart
    have hgoes := fun isCore => enter_goes isCore hw hfresh hgiven hnil
      (layer.arrangement.perm t ((layer.hierarchy known given).above t))
    simp only [Layer.step]
    rcases fetch_eq layer known given t _ with ⟨hc, hfetch⟩ | ⟨hc, habove, hfetch⟩
    · rw [hfetch]
      refine ⟨[t], fun u hu => ?_, hgoes _⟩
      rw [List.mem_singleton.mp hu]
      exact hc
    · rw [hfetch]
      refine ⟨hc, rfl, ?_⟩
      rw [← habove]
      exact hgoes _
  | scan =>
    obtain ⟨start', p, below, hseeks, hw⟩ := h.phase
    cases hseeks.unique hstart
    exact scan_books hw
  | close set members =>
    obtain ⟨start', parts, hseeks, hw, _⟩ := h.phase
    cases hseeks.unique hstart
    cases members with
    | nil => exact ⟨[], fun t ht => absurd ht List.not_mem_nil, resume_goes rfl hw rfl rfl rfl rfl⟩
    | cons t members =>
      refine ⟨trivial, fun u => by simp, ⟨fun u hu => absurd hu List.not_mem_nil, .nil⟩,
        fun u hu => absurd hu List.not_mem_nil, .refl _, .refl _, .refl _, fun u hu => ?_⟩
      exact (List.mem_cons.mp hu).imp_left List.mem_singleton.mpr
  | answer set => exact ⟨rfl, rfl, rfl⟩

end Ancestry.Closure
