import Ancestry.Closure.Query
import Ancestry.Proofs.Walk.Bookkeeping
import Mathlib.Data.List.Basic

/-!
# A walk whose lookups may fail

`Walk` answers every lookup: a type without a number has the number zero, one with nothing put
aside has put the empty set aside, and a component is closed at its root whether or not the root is
on the stack.  Here the same steps are written down again so that each of these lookups fails if
there is nothing to be found, and types leave the stack one by one, from a stack that may run out.
On a walk whose books are in order none of them fails, and the step that is taken is the same
(`Walk.Orderly.scan?_eq`).
-/

namespace Ancestry.Closure

namespace Walk

/-! ## 1. The operations that may fail -/

/-- Lowers the low point of a type, which has to have one. -/
def lower? (w : Walk) (t : TypeName) (n : Nat) : Option Walk :=
  match w.low[t]? with
  | none => none
  | some low => some { w with low := w.low.insert t (min low n) }

/-- Hands a set and a low point on to the innermost frame, if there is one. -/
def yield? (w : Walk) (set : TypeSet) (low : Nat) : Option Walk :=
  match w.frames with
  | [] => some w
  | f :: _ => (w.collect set).lower? f.type low

/-- Pops types off the stack until `root` comes, adds what each type above it has put aside to a
set, and lists the types.  The stack must not run out before. -/
def popTo? (root : TypeName) : List TypeName → Walk → TypeSet →
    Option (List TypeName × TypeSet × Walk)
  | [], _, _ => none
  | t :: stack, w, set =>
    let w := { w with stack := stack, onStack := w.onStack.erase t }
    if t = root then some ([t], set, w)
    else match w.partials[t]? with
      | none => none
      | some put =>
        (popTo? root stack { w with partials := w.partials.erase t } (set ∪ put)).map
          fun (members, set, w) => (t :: members, set, w)

/-- Closes the component of `root`, which has collected `collected` itself. -/
def close? (w : Walk) (root : TypeName) (collected : TypeSet) :
    Option (List TypeName × TypeSet × Walk) :=
  (popTo? root w.stack w collected).map fun (members, set, w) =>
    (members, set, { w with finished := members.foldl (fun m t => m.insert t set) w.finished })

end Walk

namespace Layer

/-- Leaves the innermost frame `f`, the type of which has to have a number and a low point. -/
def leave? (w : Walk) (f : Frame) : Option Query :=
  let w' := { w with frames := w.frames.tail }
  match w.low[f.type]?, w.order[f.type]? with
  | some low, some order =>
    if low ≠ order then
      ({ w' with partials := w'.partials.insert f.type f.collected }.yield? f.collected low).map
        fun w => resume w f.collected
    else match w'.close? f.type f.collected with
      | none => none
      | some (members, set, w) => (w.yield? set low).map fun w => ⟨.close set members, w⟩
  | _, _ => none

/-- The next step of a walk that has a frame. -/
def scan? (w : Walk) : Option Step :=
  match w.frames with
  | [] => none
  | f :: _ =>
    match f.pending with
    | [] => (leave? w f).map .silent
    | s :: _ =>
      let w := w.drop
      if s ∈ w.onStack then
        match w.order[s]? with
        | none => none
        | some n => (w.lower? f.type n).map fun w => .silent ⟨.scan, w⟩
      else match w.finished[s]? with
        | some set => some (.silent ⟨.scan, w.collect set⟩)
        | none => some (.lookup s (fun set => ⟨.scan, w.collect set⟩) ⟨.enter s, w⟩)

end Layer

namespace Walk

variable {w : Walk} {f : Frame} {rest : List Frame} {t u root : TypeName} {set : TypeSet} {n : Nat}
  {front back : List TypeName}

/-! ## 2. What is needed for them not to fail -/

/-- Of what is in a table, the lookup that can fail finds what the one with a default gives. -/
theorem getElem?_order (ht : t ∈ w.order) : w.order[t]? = some (w.orderOf t) := by
  rw [orderOf, Std.ExtTreeMap.getElem?_eq_some_getElem ht, Option.getD_some]

theorem getElem?_low (ht : t ∈ w.low) : w.low[t]? = some (w.lowOf t) := by
  rw [lowOf, Std.ExtTreeMap.getElem?_eq_some_getElem ht, Option.getD_some]

theorem getElem?_partials (ht : t ∈ w.partials) : w.partials[t]? = some (w.partialOf t) := by
  rw [partialOf, Std.ExtTreeMap.getElem?_eq_some_getElem ht, Option.getD_some]

theorem lower?_eq (ht : t ∈ w.low) : w.lower? t n = some (w.lower t n) := by
  simp only [lower?, getElem?_low ht, lower]

/-- Yielding needs a low point of the type below, if there is one. -/
theorem yield?_eq (hlow : ∀ f ∈ w.frames.head?, f.type ∈ w.low) :
    w.yield? set n = some (w.yield set n) := by
  cases hf : w.frames with
  | nil => simp only [yield?, hf, yield_nil hf]
  | cons f rest =>
    have hcollect : f.type ∈ (w.collect set).low := by
      rw [collect_eq hf]
      exact hlow f (by simp [hf])
    simp only [yield?, hf, yield_eq hf]
    exact lower?_eq hcollect

theorem partialOf_erase (hu : u ≠ t) :
    ({ w with partials := w.partials.erase t } : Walk).partialOf u = w.partialOf u := by
  simp [partialOf, Std.ExtTreeMap.getElem?_erase, hu.symm]

/-- **Types are popped down to a root that is on the stack**, if every type above it has something
put aside. -/
theorem popTo?_append (hroot : root ∉ front) (hnodup : front.Nodup)
    (hput : ∀ t ∈ front, t ∈ w.partials) :
    popTo? root (front ++ root :: back) w set =
      some (front ++ [root], front.foldl (fun set t => set ∪ w.partialOf t) set,
        { w with
          stack := back
          onStack := (front ++ [root]).foldl (fun s t => s.erase t) w.onStack
          partials := front.foldl (fun m t => m.erase t) w.partials }) := by
  induction front generalizing w set with
  | nil => simp [popTo?]
  | cons t front ih =>
    have hne : root ≠ t := List.ne_of_not_mem_cons hroot
    have hroot : root ∉ front := List.not_mem_of_not_mem_cons hroot
    obtain ⟨ht, hnodup⟩ := List.nodup_cons.mp hnodup
    have hother : ∀ u ∈ front, u ≠ t := fun u hu he => ht (he ▸ hu)
    have hrest := @ih
      { w with
        stack := front ++ root :: back
        onStack := w.onStack.erase t
        partials := w.partials.erase t }
      (set ∪ w.partialOf t) hroot hnodup ?_
    · have hfold : ∀ set : TypeSet, ∀ u ∈ front,
          set ∪ ({ w with partials := w.partials.erase t } : Walk).partialOf u =
            set ∪ w.partialOf u := fun set u hu => by rw [partialOf_erase (hother u hu)]
      have hfront : ∀ set, front.foldl (fun set u =>
          set ∪ ({ w with partials := w.partials.erase t } : Walk).partialOf u) set =
            front.foldl (fun set u => set ∪ w.partialOf u) set :=
        fun set => List.foldl_ext _ _ _ hfold
      simp only [List.cons_append, popTo?, if_neg (Ne.symm hne),
        getElem?_partials (hput t List.mem_cons_self)]
      rw [hrest]
      simp only [Option.map_some, List.foldl_cons]
      rw [← hfront]
      rfl
    · intro u hu
      rw [Std.ExtTreeMap.mem_erase]
      refine ⟨?_, hput u (List.mem_cons_of_mem _ hu)⟩
      simpa using (hother u hu).symm

/-- What follows a name in a list that goes on after the first occurrence of the name. -/
theorem sublist_of_cons_append {names : List TypeName} (hroot : root ∉ front)
    (h : (root :: names).Sublist (front ++ root :: back)) : names.Sublist back := by
  induction front with
  | nil => exact List.cons_sublist_cons.mp h
  | cons t front ih =>
    have hne : root ≠ t := List.ne_of_not_mem_cons hroot
    exact ih (List.not_mem_of_not_mem_cons hroot) (h.of_cons_of_ne hne)

/-- **Everything above the type of the innermost frame has something put aside**, on a walk whose
books are in order. -/
theorem Orderly.exists_front (h : w.Orderly) (hf : w.frames = f :: rest) :
    ∃ front back, w.stack = front ++ f.type :: back ∧ f.type ∉ front ∧ front.Nodup ∧
      ∀ t ∈ front, t ∈ w.partials := by
  have hframes := h.frames
  have hnodup := h.nodup
  rw [hf, List.map_cons] at hframes
  obtain ⟨front, back, hstack, hroot⟩ :=
    List.eq_append_cons_of_mem (hframes.subset List.mem_cons_self)
  rw [hstack] at hframes hnodup
  obtain ⟨hfront, _, hapart⟩ := List.nodup_append.mp hnodup
  refine ⟨front, back, hstack, hroot, hfront, fun t ht => (h.partials_iff t).mpr ⟨?_, ?_⟩⟩
  · rw [hstack]
    exact List.mem_append_left _ ht
  · intro hmem
    rw [hf, List.map_cons] at hmem
    rcases List.mem_cons.mp hmem with rfl | hmem
    · exact hroot ht
    · have hback : t ∈ back := (sublist_of_cons_append hroot hframes).subset hmem
      exact hapart t ht t (List.mem_cons_of_mem _ hback) rfl

theorem Orderly.mem_stack (h : w.Orderly) (hf : f ∈ w.frames) : f.type ∈ w.stack :=
  h.frames.subset (List.mem_map_of_mem hf)

/-- **Closing a component fails at nothing** and stops at its root. -/
theorem Orderly.close?_eq (h : w.Orderly) (hf : w.frames = f :: rest) :
    ({ w with frames := rest } : Walk).close? f.type set =
      some (w.component f.type, w.componentSet f.type set,
        ({ w with frames := rest } : Walk).closeComponent f.type (w.componentSet f.type set)) := by
  obtain ⟨front, back, hstack, hroot, hnodup, hput⟩ := h.exists_front hf
  have hown : f.type ∉ w.partials := fun hm => ((h.partials_iff _).mp hm).2 (by simp [hf])
  -- The root has nothing put aside, so that nothing is removed for it.
  have herase : (front ++ [f.type]).foldl (fun m t => m.erase t) w.partials =
      front.foldl (fun m t => m.erase t) w.partials := by
    refine Std.ExtTreeMap.ext_getElem? fun u => ?_
    rw [getElem?_foldl_erase, getElem?_foldl_erase]
    by_cases hu : u = f.type
    · subst hu
      simp [hroot, Std.ExtTreeMap.getElem?_eq_none hown]
    · simp [hu]
  have hpop : popTo? f.type (front ++ f.type :: back) _ set = _ :=
    popTo?_append (w := { w with frames := rest, stack := front ++ f.type :: back })
      hroot hnodup hput
  simp only [close?, closeComponent, component, componentSet, hstack, takeWhile_ne_append hroot,
    dropWhile_ne_append hroot, List.tail_cons, herase]
  rw [hpop]
  rfl

/-! ## 3. No step fails -/

/-- An orderly walk leaves its frame without a lookup that fails. -/
theorem Orderly.leave?_eq (h : w.Orderly) (hf : w.frames = f :: rest) :
    Layer.leave? w f = some (Layer.leave w f) := by
  have hmem : f.type ∈ w.stack := h.mem_stack (by simp [hf])
  have hlow : w.low[f.type]? = some (w.lowOf f.type) :=
    getElem?_low ((h.low_iff _).mpr (.inl hmem))
  have horder : w.order[f.type]? = some (w.orderOf f.type) :=
    getElem?_order ((h.order_iff _).mpr (.inl hmem))
  have hrest : ∀ g ∈ rest.head?, g.type ∈ w.low := fun g hg =>
    (h.low_iff _).mpr (.inl (h.mem_stack (by simp [hf, List.mem_of_mem_head? hg])))
  simp only [Layer.leave?, Layer.leave, hlow, horder, hf, List.tail_cons, h.close?_eq hf]
  split
  · rw [yield?_eq hrest]
    rfl
  · rw [yield?_eq hrest]
    rfl

/-- **No step of a walk fails** whose books are in order and which has a frame: every lookup finds
something, and the step is the one that it takes. -/
theorem Orderly.scan?_eq {layer : Layer} (h : w.Orderly) (hf : w.frames ≠ []) :
    Layer.scan? w = some (layer.step ⟨.scan, w⟩) := by
  obtain ⟨f, rest, hf⟩ := List.exists_cons_of_ne_nil hf
  have hmem : f.type ∈ w.stack := h.mem_stack (by simp [hf])
  cases hp : f.pending with
  | nil => simp only [Layer.scan?, Layer.step, hf, hp, h.leave?_eq hf, Option.map_some]
  | cons s pending =>
    have hlow : f.type ∈ w.drop.low := by
      rw [drop_eq hf]
      exact (h.low_iff _).mpr (.inl hmem)
    simp only [Layer.scan?, Layer.step, hf, hp]
    split
    · next hs =>
      have hs' : s ∈ w.drop.order := by
        rw [drop_eq hf] at hs ⊢
        exact (h.order_iff s).mpr (.inl ((h.mem_onStack s).mp hs))
      rw [getElem?_order hs']
      simp only [lower?_eq hlow, Option.map_some]
    · cases w.drop.finished[s]? with
      | some set => rfl
      | none => rfl

end Walk
end Ancestry.Closure
