import Ancestry.Proofs.Walk.Invariant

/-!
# What a walk keeps in mind fits together

A walk keeps seven things in mind, and looks types up in one of them because of what it knows from
another: a type that is on the stack has a number, a type above the innermost frame has something
put aside.  `Walk.Orderly` says how the seven fit together when the walk is about to take a
supertype or to leave a frame.

It is kept whatever the memo and the core registry tell the walk, so nothing here speaks of
supertypes or of sets.  What carries it is that the stack falls into stretches, one for each frame
(`Walk.Fits`): the types with something put aside are those above the root of a stretch.
-/

namespace Ancestry.Closure

open Stretch

/-! ## 1. Stretches without repetition -/

namespace Stretch

variable {p q : Stretch} {parts : List Stretch} {t : TypeName}

theorem mem_spread : t ∈ spread parts ↔ ∃ p ∈ parts, t ∈ p.ended ∨ t = p.root := by
  simp [spread, List.mem_flatMap]

/-- The roots stand on the stack in the order of their stretches. -/
theorem roots_sublist : ∀ parts : List Stretch, (parts.map root).Sublist (spread parts)
  | [] => List.Sublist.refl _
  | p :: parts => by
    have hroot : [p.root].Sublist p.members := List.sublist_append_right ..
    exact hroot.append (roots_sublist parts)

/-- A type that is above a root is no root, if the stack has no type twice. -/
theorem ne_root_of_mem_ended : ∀ {parts : List Stretch}, (spread parts).Nodup →
    p ∈ parts → q ∈ parts → t ∈ p.ended → t ≠ q.root
  | r :: parts, hnodup, hp, hq, ht => by
    rw [spread_cons, List.nodup_append, members, List.nodup_append] at hnodup
    obtain ⟨⟨_, _, hends⟩, hrest, hapart⟩ := hnodup
    rcases List.mem_cons.mp hp with rfl | hp
    · rcases List.mem_cons.mp hq with rfl | hq
      · exact hends t ht q.root (List.mem_singleton_self _)
      · refine hapart t (List.mem_append_left _ ht) q.root ?_
        exact mem_spread.mpr ⟨q, hq, .inr rfl⟩
    · have htp : t ∈ spread parts := mem_spread.mpr ⟨p, hp, .inl ht⟩
      rcases List.mem_cons.mp hq with rfl | hq
      · exact fun he => hapart q.root (by simp) t htp he.symm
      · exact ne_root_of_mem_ended hrest hp hq ht

end Stretch

namespace Walk

/-! ## 2. The seven things -/

/-- The seven things that a walk keeps in mind fit together. -/
structure Orderly (w : Walk) : Prop where
  nodup : w.stack.Nodup
  mem_onStack : ∀ t, t ∈ w.onStack ↔ t ∈ w.stack
  frames : (w.frames.map (·.type)).Sublist w.stack
  partials_iff : ∀ t, t ∈ w.partials ↔ t ∈ w.stack ∧ t ∉ w.frames.map (·.type)
  apart : ∀ t ∈ w.stack, t ∉ w.finished
  order_iff : ∀ t, t ∈ w.order ↔ t ∈ w.stack ∨ t ∈ w.finished
  low_iff : ∀ t, t ∈ w.low ↔ t ∈ w.stack ∨ t ∈ w.finished

/-- What a walk from `start` keeps in mind fits together, where its stack falls into the stretches
`parts`.  The type at which the walk began is the root of the lowest one, and has the least number
of all. -/
structure Fits (w : Walk) (start : TypeName) (parts : List Stretch) : Prop where
  frames_eq : w.frames = parts.map (·.frame)
  stack_eq : w.stack = spread parts
  nodup : (spread parts).Nodup
  mem_onStack : ∀ t, t ∈ w.onStack ↔ t ∈ spread parts
  partials_iff : ∀ t, t ∈ w.partials ↔ ∃ p ∈ parts, t ∈ p.ended
  apart : ∀ t ∈ spread parts, t ∉ w.finished
  order_iff : ∀ t, t ∈ w.order ↔ t ∈ spread parts ∨ t ∈ w.finished
  low_iff : ∀ t, t ∈ w.low ↔ t ∈ spread parts ∨ t ∈ w.finished
  low_le : ∀ p ∈ parts, w.lowOf p.root ≤ w.orderOf p.root
  start_last : ∀ p ∈ parts.getLast?, p.root = start ∧ w.orderOf start = 0

variable {w w' : Walk} {start t : TypeName} {p q : Stretch} {parts below rest : List Stretch}
  {set : TypeSet} {n : Nat}

/-- A walk that fits its stretches is orderly: no lookup in its tables fails. -/
theorem Fits.orderly (h : w.Fits start parts) : w.Orderly := by
  have hroots : w.frames.map (·.type) = parts.map root := by
    rw [h.frames_eq, List.map_map]
    rfl
  refine ⟨h.stack_eq ▸ h.nodup, ?_, ?_, fun t => ?_, ?_, ?_, ?_⟩
  · rw [h.stack_eq]
    exact h.mem_onStack
  · rw [hroots, h.stack_eq]
    exact roots_sublist parts
  · rw [h.partials_iff, h.stack_eq, hroots, mem_spread, List.mem_map]
    constructor
    · rintro ⟨p, hp, ht⟩
      refine ⟨⟨p, hp, .inl ht⟩, ?_⟩
      rintro ⟨q, hq, rfl⟩
      exact ne_root_of_mem_ended h.nodup hp hq ht rfl
    · rintro ⟨⟨p, hp, ht | rfl⟩, hnot⟩
      · exact ⟨p, hp, ht⟩
      · exact absurd ⟨p, hp, rfl⟩ hnot
  · rw [h.stack_eq]
    exact h.apart
  · rw [h.stack_eq]
    exact h.order_iff
  · rw [h.stack_eq]
    exact h.low_iff

/-- **The type at which the walk began is the root of its component**: when its frame is the only
one, its low point is its number. -/
theorem Fits.alone (h : w.Fits start [p]) : p.root = start ∧ w.lowOf p.root = w.orderOf p.root := by
  obtain ⟨hroot, hzero⟩ := h.start_last p rfl
  have hle := h.low_le p (List.mem_singleton_self p)
  refine ⟨hroot, ?_⟩
  rw [hroot] at hle ⊢
  omega

/-! ## 3. The innermost frame -/

/-- The frame of the uppermost stretch may go on, and low points may be lowered. -/
theorem Fits.update (pending : List TypeName) (collected : TypeSet)
    (h : w.Fits start (p :: below))
    (hw : w' = { w with frames := (p.update pending collected).frame :: below.map (·.frame),
                        low := w'.low })
    (hlow : ∀ t, t ∈ w'.low ↔ t ∈ w.low) (hle : ∀ t, w'.lowOf t ≤ w.lowOf t) :
    w'.Fits start (p.update pending collected :: below) := by
  have hstack : w'.stack = w.stack := by rw [hw]
  have hon : w'.onStack = w.onStack := by rw [hw]
  have horder : w'.order = w.order := by rw [hw]
  have hfin : w'.finished = w.finished := by rw [hw]
  have hpart : w'.partials = w.partials := by rw [hw]
  have hof : ∀ t, w'.orderOf t = w.orderOf t := fun t => by rw [orderOf, horder]; rfl
  refine ⟨by rw [hw]; rfl, hstack.trans h.stack_eq, h.nodup, ?_, ?_, ?_, ?_, ?_, ?_, ?_⟩
  · rw [hon]
    exact h.mem_onStack
  · rw [hpart]
    simpa [Stretch.update] using h.partials_iff
  · rw [hfin]
    exact h.apart
  · rw [horder, hfin]
    exact h.order_iff
  · intro t
    rw [hlow, hfin]
    exact h.low_iff t
  · intro r hr
    rw [hof]
    rcases List.mem_cons.mp hr with rfl | hr
    · exact Nat.le_trans (hle _) (h.low_le p List.mem_cons_self)
    · exact Nat.le_trans (hle _) (h.low_le r (List.mem_cons_of_mem _ hr))
  · rw [hof]
    have hlast := h.start_last
    cases below with
    | nil => simpa [Stretch.update, Stretch.root] using hlast
    | cons q rest => simpa using hlast

theorem Fits.mem_low (h : w.Fits start (p :: below)) : p.root ∈ w.low :=
  (h.low_iff p.root).mpr (.inl (by simp))

theorem Fits.drop (h : w.Fits start (p :: below)) :
    w.drop.Fits start (p.update p.frame.pending.tail p.frame.collected :: below) := by
  rw [drop_eq h.frames_eq]
  exact h.update _ _ rfl (fun _ => .rfl) (fun _ => Nat.le_refl _)

theorem Fits.collect (h : w.Fits start (p :: below)) (set : TypeSet) :
    (w.collect set).Fits start
      (p.update p.frame.pending (p.frame.collected ∪ set) :: below) := by
  rw [collect_eq h.frames_eq]
  exact h.update _ _ rfl (fun _ => .rfl) (fun _ => Nat.le_refl _)

/-- The stretches do not say how low a low point is, so one may be lowered. -/
theorem Fits.lower (h : w.Fits start (p :: below)) (n : Nat) :
    (w.lower p.root n).Fits start (p :: below) := by
  refine h.update p.frame.pending p.frame.collected ?_ (fun t => ?_) (fun t => ?_)
  · rw [Walk.lower, h.frames_eq]
    rfl
  · rw [mem_low_lower]
    exact ⟨fun ht => ht.elim (fun he => he ▸ h.mem_low) id, .inr⟩
  · rw [lowOf_lower]
    split
    · next he => exact he ▸ Nat.min_le_left _ _
    · exact Nat.le_refl _

/-- Handing a set on changes no more than the innermost frame, if there is one. -/
theorem Fits.yield (h : w.Fits start parts) (set : TypeSet) (n : Nat) :
    ∃ parts', (w.yield set n).Fits start parts' ∧ (parts' = [] → parts = []) := by
  cases parts with
  | nil =>
    rw [yield_nil h.frames_eq]
    exact ⟨[], h, id⟩
  | cons p below =>
    rw [yield_eq h.frames_eq]
    exact ⟨_, (h.collect set).lower n, fun hnil => absurd hnil (List.cons_ne_nil _ _)⟩

/-! ## 4. Entering a type and leaving a frame -/

/-- The walk that has entered nothing fits together. -/
theorem fits_empty (start : TypeName) : Walk.empty.Fits start [] := by
  constructor <;> simp [empty]

/-- A type that is entered begins a stretch of its own. -/
theorem Fits.enter {isCore : Bool} {supertypes : List TypeName} (h : w.Fits start parts)
    (hfresh : t ∉ w.order) (hstart : parts = [] → w = .empty ∧ t = start) :
    (w.enter t isCore supertypes).Fits start
      (⟨⟨t, supertypes, if isCore then TypeSet.ofNames [t] else ∅⟩, []⟩ :: parts) := by
  have hnot : t ∉ spread parts := fun ht => hfresh ((h.order_iff t).mpr (.inl ht))
  have hentered : ∀ r ∈ parts, r.root ≠ t :=
    fun r hr he => hnot (mem_spread.mpr ⟨r, hr, .inr he.symm⟩)
  refine ⟨?_, ?_, ?_, ?_, ?_, ?_, ?_, ?_, ?_, ?_⟩
  · simp [Walk.enter, h.frames_eq]
  · simp [Walk.enter, h.stack_eq, Stretch.members, Stretch.root]
  · exact List.nodup_cons.mpr ⟨hnot, h.nodup⟩
  · intro u
    rw [mem_onStack_enter, h.mem_onStack]
    exact List.mem_cons.symm
  · simpa [Walk.enter] using h.partials_iff
  · intro u hu
    rcases List.mem_cons.mp hu with rfl | hu
    · exact fun hf => hfresh ((h.order_iff u).mpr (.inr hf))
    · exact h.apart u hu
  · intro u
    rw [mem_order_enter, h.order_iff]
    simp [Walk.enter, Stretch.members, Stretch.root, or_assoc]
  · intro u
    rw [mem_low_enter, h.low_iff]
    simp [Walk.enter, Stretch.members, Stretch.root, or_assoc]
  · intro r hr
    rw [lowOf_enter, orderOf_enter]
    rcases List.mem_cons.mp hr with rfl | hr
    · exact Nat.le_of_eq ((if_pos rfl).trans (if_pos rfl).symm)
    · rw [if_neg (hentered r hr), if_neg (hentered r hr)]
      exact h.low_le r hr
  · cases parts with
    | nil =>
      obtain ⟨rfl, rfl⟩ := hstart rfl
      intro r hr
      cases hr
      refine ⟨rfl, orderOf_enter.trans ((if_pos rfl).trans ?_)⟩
      simp [empty]
    | cons p below =>
      intro r hr
      have hr' : r ∈ (p :: below).getLast? := by simpa using hr
      obtain ⟨hroot, hzero⟩ := h.start_last r hr'
      have hne := hentered r (List.mem_of_getLast? hr')
      rw [hroot] at hne
      exact ⟨hroot, orderOf_enter.trans ((if_neg hne).trans hzero)⟩

/-- **A frame is left whose component stays open**: its stretch joins the one below, and its type is
one of those with something put aside. -/
theorem Fits.setAside (h : w.Fits start (p :: q :: rest)) (set : TypeSet) :
    ({ w with frames := w.frames.tail, partials := w.partials.insert p.root set } : Walk).Fits start
      (⟨q.frame, p.members ++ q.ended⟩ :: rest) := by
  have hspread : spread (⟨q.frame, p.members ++ q.ended⟩ :: rest) = spread (p :: q :: rest) := by
    simp [Stretch.members, Stretch.root]
  have hroot : Stretch.root ⟨q.frame, p.members ++ q.ended⟩ = q.root := rfl
  refine ⟨?_, ?_, ?_, ?_, ?_, ?_, ?_, ?_, ?_, ?_⟩
  · simp [h.frames_eq]
  · rw [hspread]
    exact h.stack_eq
  · rw [hspread]
    exact h.nodup
  · rw [hspread]
    exact h.mem_onStack
  · intro u
    simp [Std.ExtTreeMap.mem_insert, h.partials_iff, or_assoc, eq_comm (a := p.root),
      or_left_comm (a := u = p.root)]
  · rw [hspread]
    exact h.apart
  · rw [hspread]
    exact h.order_iff
  · rw [hspread]
    exact h.low_iff
  · intro r hr
    rcases List.mem_cons.mp hr with rfl | hr
    · exact h.low_le q (by simp)
    · exact h.low_le r (by simp [hr])
  · intro r hr
    cases rest with
    | nil =>
      obtain rfl : _ = r := Option.mem_some_iff.mp hr
      exact h.start_last q rfl
    | cons s rest => exact h.start_last r (by simpa using hr)

/-- The types of the uppermost stretch are those that leave the stack with its root. -/
theorem Fits.component_eq (h : w.Fits start (p :: below)) : w.component p.root = p.members :=
  component_append (h.stack_eq.trans (spread_append ..)) (root_notMem_ended h.nodup)

/-- When the component of the innermost root is closed, its stretch is taken off the stack. -/
theorem Fits.stack_closeComponent (h : w.Fits start (p :: below)) (set : TypeSet) :
    (w.closeComponent p.root set).stack = spread below :=
  stack_closeComponent_append (h.stack_eq.trans (spread_append ..)) (root_notMem_ended h.nodup)

/-- **A component is closed**: the uppermost stretch is gone, and its types are finished. -/
theorem Fits.closeComponent (h : w.Fits start (p :: below)) (set : TypeSet) :
    (({ w with frames := w.frames.tail } : Walk).closeComponent p.root set).Fits start below := by
  have hcomp : ({ w with frames := w.frames.tail } : Walk).component p.root = p.members :=
    h.component_eq
  have hnodup := h.nodup
  rw [spread_cons, List.nodup_append] at hnodup
  obtain ⟨_, hbelow, hapart⟩ := hnodup
  have hother : ∀ u ∈ spread below, u ∉ p.members := fun u hu hm => hapart u hm u hu rfl
  have hsplit : ∀ u, (u ∈ spread below ∨ u ∈ (({ w with frames := w.frames.tail } :
      Walk).closeComponent p.root set).finished) ↔ u ∈ spread (p :: below) ∨ u ∈ w.finished := by
    intro u
    rw [mem_finished_closeComponent, hcomp, spread_cons, List.mem_append, ← or_assoc,
      or_comm (a := u ∈ spread below)]
  refine ⟨?_, h.stack_closeComponent set, hbelow, ?_, ?_, ?_, ?_, ?_, ?_, ?_⟩
  · show w.frames.tail = below.map (·.frame)
    rw [h.frames_eq]
    rfl
  · intro u
    rw [mem_onStack_closeComponent, hcomp]
    refine (and_congr_left' (h.mem_onStack u)).trans ?_
    rw [spread_cons, List.mem_append]
    exact ⟨fun hu => hu.1.resolve_left hu.2, fun hu => ⟨.inr hu, hother u hu⟩⟩
  · intro u
    rw [mem_partials_closeComponent, hcomp]
    refine (and_congr_left' (h.partials_iff u)).trans ?_
    constructor
    · rintro ⟨⟨r, hr, hu⟩, hnot⟩
      rcases List.mem_cons.mp hr with rfl | hr
      · exact absurd (Stretch.mem_members.mpr (.inl hu)) hnot
      · exact ⟨r, hr, hu⟩
    · rintro ⟨r, hr, hu⟩
      exact ⟨⟨r, List.mem_cons_of_mem _ hr, hu⟩, hother u (mem_spread.mpr ⟨r, hr, .inl hu⟩)⟩
  · intro u hu
    rw [mem_finished_closeComponent, hcomp, not_or]
    exact ⟨hother u hu, h.apart u (List.mem_append_right _ hu)⟩
  · exact fun u => (h.order_iff u).trans (hsplit u).symm
  · exact fun u => (h.low_iff u).trans (hsplit u).symm
  · exact fun r hr => h.low_le r (List.mem_cons_of_mem _ hr)
  · intro r hr
    cases below with
    | nil => cases hr
    | cons q rest => exact h.start_last r (by simpa using hr)

end Walk
end Ancestry.Closure
