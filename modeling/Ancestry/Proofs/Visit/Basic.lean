import Ancestry.Closure.Session

/-!
# The traversal as a recursion

A walk keeps its own stack of frames, so that no recursion limits how high it can go.  Without that
concern it would be a depth-first traversal that calls itself, with the low points of Tarjan's
algorithm.  `Layer.visit` is this traversal, written down apart from the walk: it has no frames, it
keeps no low points and no sets of types whose component is open, but returns both to its caller.

Nothing says beforehand that the recursion ends or that the core registry answers, so there may be
no result.
-/

namespace Ancestry.Closure

variable {σ : Type}

/-- What a traversal keeps in mind, and what it has done so far: the types about which it asked the
core registry, the events that were heard of, and the sets that it stored, each with the last one in
front. -/
structure Trail (σ : Type) where
  /-- The number of each type visited, counted from zero. -/
  order : Std.ExtTreeMap TypeName Nat compare := ∅
  /-- The types visited whose component is still open. -/
  stack : List TypeName := []
  /-- The sets of the types whose component is closed. -/
  finished : Std.ExtTreeMap TypeName TypeSet compare := ∅
  memo : Memo
  core : σ
  asked : List TypeName := []
  heard : List Event := []
  stored : List (TypeName × TypeSet) := []

namespace Trail

/-- The number of a type. -/
def orderOf (trail : Trail σ) (t : TypeName) : Nat := (trail.order[t]?).getD 0

/-- Numbers a type and pushes it. -/
def push (trail : Trail σ) (t : TypeName) : Trail σ :=
  { trail with order := trail.order.insert t trail.order.size, stack := t :: trail.stack }

/-- Looks a type up in the memo and reports whether it is there. -/
def lookup (trail : Trail σ) (t : TypeName) : Option TypeSet × Trail σ :=
  match trail.memo.get t with
  | (some set, memo) =>
    (some set, { trail with memo := memo, heard := ⟨.cacheHit, t⟩ :: trail.heard })
  | (none, memo) => (none, { trail with memo := memo, heard := ⟨.cacheMiss, t⟩ :: trail.heard })

/-- Asks the core registry about a type, and reports it if nothing is known of it. -/
def ask (core : Core σ) (t : TypeName) (trail : Trail σ) : Option (TypeSet × Trail σ) :=
  match core.ancestors t trail.core with
  | (.ok set, state) =>
    let heard := if set.isEmpty then ⟨.coreUnknown, t⟩ :: trail.heard else trail.heard
    some (set, { trail with core := state, asked := t :: trail.asked, heard := heard })
  | (.error _, _) => none

/-- The direct supertypes of a type: those declared, or else what the core registry answers for a
core type. -/
def supertypes (layer : Layer) (core : Core σ) (t : TypeName) (trail : Trail σ) :
    Option (TypeSet × Trail σ) :=
  match layer.index.get? t with
  | some declared => some (declared, trail)
  | none => if layer.space.contains t then trail.ask core t else some (∅, trail)

/-- Stores the set of a type whose component is closed. -/
def store (set : TypeSet) (trail : Trail σ) (t : TypeName) : Trail σ :=
  { trail with
    finished := trail.finished.insert t set
    memo := trail.memo.store t set
    heard := ⟨.cacheStore, t⟩ :: trail.heard
    stored := (t, set) :: trail.stored }

/-- Closes the component of `root`: pops the types down to it, and stores the set for each in the
order in which they are popped. -/
def close (root : TypeName) (set : TypeSet) (trail : Trail σ) : Trail σ :=
  (trail.stack.takeWhile (· ≠ root) ++ [root]).foldl (store set)
    { trail with stack := (trail.stack.dropWhile (· ≠ root)).tail }

end Trail

namespace Layer

mutual

/-- Visits a type.  The result is what it has collected, and its low point. -/
def visit (layer : Layer) (core : Core σ) (t : TypeName) (trail : Trail σ) :
    Option ((TypeSet × Nat) × Trail σ) := do
  let number := trail.order.size
  let own := if layer.space.contains t then TypeSet.ofNames [t] else ∅
  let (supertypes, trail) ← trail.push t |>.supertypes layer core t
  let ((set, low), trail) ←
    layer |>.ascend core (layer.arrangement.list t supertypes) (own, number) trail
  if low = number then return ((set, low), trail.close t set) else return ((set, low), trail)
partial_fixpoint

/-- Goes through the supertypes of a type, which has collected a set and has a low point so far. -/
def ascend (layer : Layer) (core : Core σ) (supertypes : List TypeName) (found : TypeSet × Nat)
    (trail : Trail σ) : Option ((TypeSet × Nat) × Trail σ) :=
  match supertypes with
  | [] => some (found, trail)
  | s :: supertypes =>
    if s ∈ trail.stack then
      layer |>.ascend core supertypes (found.1, min found.2 (trail.orderOf s)) trail
    else match trail.finished[s]? with
    | some set => layer |>.ascend core supertypes (found.1 ∪ set, found.2) trail
    | none =>
      match trail.lookup s with
      | (some set, trail) => layer |>.ascend core supertypes (found.1 ∪ set, found.2) trail
      | (none, trail) => do
        let ((set, low), trail) ← layer |>.visit core s trail
        layer |>.ascend core supertypes (found.1 ∪ set, min found.2 low) trail
partial_fixpoint

end

end Layer

variable {layer : Layer} {core : Core σ} {s : TypeName} {supertypes : List TypeName}
  {found : TypeSet × Nat} {trail : Trail σ} {set : TypeSet}

theorem ascend_nil : layer.ascend core [] found trail = some (found, trail) := by rw [Layer.ascend]

theorem ascend_onStack (hs : s ∈ trail.stack) :
    layer.ascend core (s :: supertypes) found trail =
      layer.ascend core supertypes (found.1, min found.2 (trail.orderOf s)) trail := by
  rw [Layer.ascend, if_pos hs]

theorem ascend_finished (hs : s ∉ trail.stack) (hset : trail.finished[s]? = some set) :
    layer.ascend core (s :: supertypes) found trail =
      layer.ascend core supertypes (found.1 ∪ set, found.2) trail := by
  rw [Layer.ascend, if_neg hs]
  simp only [hset]

theorem Trail.lookup_hit (hset : trail.memo.peek? s = some set) :
    trail.lookup s = (some set,
      { trail with memo := (trail.memo.get s).2, heard := ⟨.cacheHit, s⟩ :: trail.heard }) := by
  simp [lookup, Memo.get, hset]

theorem Trail.lookup_miss (hset : trail.memo.peek? s = none) :
    trail.lookup s = (none,
      { trail with memo := (trail.memo.get s).2, heard := ⟨.cacheMiss, s⟩ :: trail.heard }) := by
  simp [lookup, Memo.get, hset]

theorem ascend_hit (hs : s ∉ trail.stack) (hnone : trail.finished[s]? = none)
    (hset : trail.memo.peek? s = some set) :
    layer.ascend core (s :: supertypes) found trail =
      layer.ascend core supertypes (found.1 ∪ set, found.2)
        { trail with memo := (trail.memo.get s).2, heard := ⟨.cacheHit, s⟩ :: trail.heard } := by
  rw [Layer.ascend, if_neg hs]
  simp only [hnone]
  rw [Trail.lookup_hit hset]

theorem ascend_miss (hs : s ∉ trail.stack) (hnone : trail.finished[s]? = none)
    (hset : trail.memo.peek? s = none) :
    layer.ascend core (s :: supertypes) found trail =
      (layer.visit core s { trail with
        memo := (trail.memo.get s).2, heard := ⟨.cacheMiss, s⟩ :: trail.heard }).bind
          fun ((set, low), trail) =>
            layer.ascend core supertypes (found.1 ∪ set, min found.2 low) trail := by
  rw [Layer.ascend, if_neg hs]
  simp only [hnone]
  rw [Trail.lookup_miss hset]
  rfl

end Ancestry.Closure
