import Ancestry.Closure.Walk

/-!
# What the operations of a walk do to its fields

One lemma for each field that an operation changes, and one for each that it leaves alone where a
proof asks for it.  After this nobody needs to open the operations.

A map is described by what it has under one key, `u` throughout: for the type that an operation is
about that is something new, and for any other type it is what was there before.
-/

namespace Ancestry.Closure.Walk

variable {w : Walk} {f : Frame} {rest : List Frame} {t u root : TypeName} {set : TypeSet}
  {n : Nat}

/-- What a type has put aside when its walk ended in a component that was still open. -/
def partialOf (w : Walk) (t : TypeName) : TypeSet := (w.partials[t]?).getD ∅

/-! ## 1. Entering a type -/

/-- The type that is entered gets the next number, and the others keep theirs. -/
theorem orderOf_enter {isCore : Bool} {supertypes : List TypeName} :
    (w.enter t isCore supertypes).orderOf u = if u = t then w.order.size else w.orderOf u := by
  simp only [enter, orderOf, Std.ExtTreeMap.getElem?_insert, Std.compare_eq_iff_eq,
    eq_comm (a := t)]
  split <;> rfl

/-- Its low point is its own number at first. -/
theorem lowOf_enter {isCore : Bool} {supertypes : List TypeName} :
    (w.enter t isCore supertypes).lowOf u = if u = t then w.order.size else w.lowOf u := by
  simp only [enter, lowOf, Std.ExtTreeMap.getElem?_insert, Std.compare_eq_iff_eq, eq_comm (a := t)]
  split <;> rfl

theorem mem_order_enter {isCore : Bool} {supertypes : List TypeName} :
    u ∈ (w.enter t isCore supertypes).order ↔ u = t ∨ u ∈ w.order := by
  simp [enter, Std.ExtTreeMap.mem_insert, eq_comm (a := t)]

theorem mem_low_enter {isCore : Bool} {supertypes : List TypeName} :
    u ∈ (w.enter t isCore supertypes).low ↔ u = t ∨ u ∈ w.low := by
  simp [enter, Std.ExtTreeMap.mem_insert, eq_comm (a := t)]

/-- The numbers are used up one by one. -/
theorem size_order_enter {isCore : Bool} {supertypes : List TypeName} (ht : t ∉ w.order) :
    (w.enter t isCore supertypes).order.size = w.order.size + 1 := by
  have hc : ¬ w.order.contains t = true := by simpa using ht
  simp only [enter, Std.ExtTreeMap.size_insert, if_neg hc]

theorem mem_onStack_enter {isCore : Bool} {supertypes : List TypeName} :
    u ∈ (w.enter t isCore supertypes).onStack ↔ u = t ∨ u ∈ w.onStack := by
  simp [enter, Std.ExtTreeSet.mem_insert, eq_comm (a := t)]

/-! ## 2. Low points -/

/-- A low point is lowered for one type, and never raised. -/
theorem lowOf_lower : (w.lower t n).lowOf u = if u = t then min (w.lowOf t) n else w.lowOf u := by
  simp only [lower, lowOf, Std.ExtTreeMap.getElem?_insert, Std.compare_eq_iff_eq, eq_comm (a := t)]
  split <;> rfl

theorem mem_low_lower : u ∈ (w.lower t n).low ↔ u = t ∨ u ∈ w.low := by
  simp [lower, Std.ExtTreeMap.mem_insert, eq_comm (a := t)]

/-! ## 3. The innermost frame -/

/-- The operations on the innermost frame leave a walk without frames alone.  With a frame they come
to this. -/
theorem drop_eq (hf : w.frames = f :: rest) :
    w.drop = { w with frames := { f with pending := f.pending.tail } :: rest } := by
  simp [drop, hf]

theorem collect_eq (hf : w.frames = f :: rest) :
    w.collect set = { w with frames := { f with collected := f.collected ∪ set } :: rest } := by
  simp [collect, hf]

/-- Handing on is collecting and lowering. -/
theorem yield_eq (hf : w.frames = f :: rest) :
    w.yield set n = (w.collect set).lower f.type n := by
  simp [yield, hf]

theorem yield_nil (hf : w.frames = []) : w.yield set n = w := by
  simp [yield, hf]

/-- None of them gives a type its set. -/
@[simp] theorem finished_drop : w.drop.finished = w.finished := by
  unfold drop
  split <;> rfl

@[simp] theorem finished_collect : (w.collect set).finished = w.finished := by
  unfold collect
  split <;> rfl

@[simp] theorem finished_yield : (w.yield set n).finished = w.finished := by
  unfold yield
  split
  · rfl
  · next hf => rw [collect_eq hf]; rfl

/-! ## 4. Closing a component -/

section
variable {front back : List TypeName}

/-- What is above a root comes before it on the stack. -/
theorem takeWhile_ne_append (hroot : root ∉ front) :
    (front ++ root :: back).takeWhile (· ≠ root) = front := by
  have hne : ∀ u ∈ front, decide (u ≠ root) = true :=
    fun u hu => decide_eq_true fun he => hroot (he ▸ hu)
  rw [List.takeWhile_append_of_pos hne]
  simp

/-- The root is the first of what is left then. -/
theorem dropWhile_ne_append (hroot : root ∉ front) :
    (front ++ root :: back).dropWhile (· ≠ root) = root :: back := by
  have hne : ∀ u ∈ front, decide (u ≠ root) = true :=
    fun u hu => decide_eq_true fun he => hroot (he ▸ hu)
  rw [List.dropWhile_append_of_pos hne]
  simp

/-- The component of a root are the types above it, and the root. -/
theorem component_append (hstack : w.stack = front ++ root :: back) (hroot : root ∉ front) :
    w.component root = front ++ [root] := by
  rw [component, hstack, takeWhile_ne_append hroot]

/-- When it is closed, the types below the root stay on the stack. -/
theorem stack_closeComponent_append (hstack : w.stack = front ++ root :: back)
    (hroot : root ∉ front) : (w.closeComponent root set).stack = back := by
  simp only [closeComponent, hstack, dropWhile_ne_append hroot, List.tail_cons]

end

/-- A component is closed by going through its types, once for each of four fields.  Of each of
these folds there is one lemma, which says what becomes of a single type. -/
theorem mem_foldl_union {g : TypeName → TypeSet} {x : TypeName} (ts : List TypeName)
    (set : TypeSet) :
    x ∈ ts.foldl (fun set t => set ∪ g t) set ↔ x ∈ set ∨ ∃ t ∈ ts, x ∈ g t := by
  induction ts generalizing set with
  | nil => simp
  | cons t ts ih => simp [ih, Std.ExtTreeSet.mem_union_iff, or_assoc]

theorem mem_foldl_erase (ts : List TypeName) (set : TypeSet) :
    u ∈ ts.foldl (fun set t => set.erase t) set ↔ u ∈ set ∧ u ∉ ts := by
  induction ts generalizing set with
  | nil => simp
  | cons t ts ih =>
    simp only [List.foldl_cons, ih, Std.ExtTreeSet.mem_erase, List.mem_cons, not_or, ne_eq,
      Std.compare_eq_iff_eq, eq_comm (a := t)]
    rw [and_assoc, and_left_comm]

theorem getElem?_foldl_erase {α : Type} (ts : List TypeName)
    (m : Std.ExtTreeMap TypeName α compare) :
    (ts.foldl (fun m t => m.erase t) m)[u]? = if u ∈ ts then none else m[u]? := by
  induction ts generalizing m with
  | nil => simp
  | cons t ts ih =>
    simp only [List.foldl_cons, ih, Std.ExtTreeMap.getElem?_erase, List.mem_cons,
      Std.compare_eq_iff_eq, eq_comm (a := t)]
    grind

theorem getElem?_foldl_insert {α : Type} (ts : List TypeName) (a : α)
    (m : Std.ExtTreeMap TypeName α compare) :
    (ts.foldl (fun m t => m.insert t a) m)[u]? = if u ∈ ts then some a else m[u]? := by
  induction ts generalizing m with
  | nil => simp
  | cons t ts ih =>
    simp only [List.foldl_cons, ih, Std.ExtTreeMap.getElem?_insert, List.mem_cons,
      Std.compare_eq_iff_eq, eq_comm (a := t)]
    grind

/-- What a component has collected is what its root has, and what the others have put aside. -/
theorem mem_componentSet {collected : TypeSet} {x : TypeName} :
    x ∈ w.componentSet root collected ↔
      x ∈ collected ∨ ∃ t ∈ w.stack.takeWhile (· ≠ root), x ∈ w.partialOf t :=
  mem_foldl_union _ _

/-- The types of the component leave the stack. -/
theorem mem_onStack_closeComponent :
    u ∈ (w.closeComponent root set).onStack ↔ u ∈ w.onStack ∧ u ∉ w.component root :=
  mem_foldl_erase _ _

/-- All of them get the same set. -/
theorem finished_closeComponent :
    (w.closeComponent root set).finished[u]? =
      if u ∈ w.component root then some set else w.finished[u]? :=
  getElem?_foldl_insert _ _ _

theorem mem_finished_closeComponent :
    u ∈ (w.closeComponent root set).finished ↔ u ∈ w.component root ∨ u ∈ w.finished := by
  rw [Std.ExtTreeMap.mem_iff_isSome_getElem?, finished_closeComponent,
    Std.ExtTreeMap.mem_iff_isSome_getElem?]
  split <;> simp_all

/-- What they had put aside is forgotten. -/
theorem mem_partials_closeComponent :
    u ∈ (w.closeComponent root set).partials ↔ u ∈ w.partials ∧ u ∉ w.component root := by
  rw [Std.ExtTreeMap.mem_iff_isSome_getElem?, closeComponent, getElem?_foldl_erase,
    Std.ExtTreeMap.mem_iff_isSome_getElem?]
  split <;> simp_all

/-- What other types have put aside stays. -/
theorem partialOf_closeComponent (hu : u ∉ w.component root) :
    (w.closeComponent root set).partialOf u = w.partialOf u := by
  simp only [partialOf, closeComponent, getElem?_foldl_erase, if_neg hu]

end Ancestry.Closure.Walk
