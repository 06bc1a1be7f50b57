import Ancestry.Proofs.Query.Books
import Ancestry.Proofs.Registry.Accounting
import Ancestry.Proofs.Visit.Basic

/-!
# The walk does what the traversal does

A walk with frames of its own takes the supertypes of each type in the order in which the recursive
traversal does, and between a call and its return it does what the traversal does within the call
(`simulates`).  The walk hands a child to its parent when the child's frame is left and goes on with
the supertypes of the parent; in the traversal that is the return of a call and the rest of a list.

The traversal keeps no sets of types whose component is open.  It need not: whatever such a type has
collected has been handed down to the frame from which it was entered, so the root of a component
has collected all of it by itself (`Walk.Gathers`).
-/

namespace Ancestry.Closure

variable {σ : Type} {layer : Layer} {known : TypeName → TypeSet}
  {given : TypeName → Option TypeSet} {question : Question} {core : Core σ} {valid : σ → Prop}
  {set : TypeSet} {n : Nat} {t : TypeName}

/-! ## 1. What one call leaves alone -/

namespace Walk

variable {w w' w'' : Walk} {new new' : List TypeName}

/-- From `w` to `w'` the walk has gone on above its stack, and has put the types `new` there.  What
it knew of the types entered before is as it was, but for the low point of `t`. -/
structure Continues (w w' : Walk) (t : TypeName) (new : List TypeName) : Prop where
  order : ∀ u ∈ w.order, u ∈ w'.order ∧ w'.orderOf u = w.orderOf u
  low : ∀ u ∈ w.order, u ≠ t → w'.lowOf u = w.lowOf u
  stack : w'.stack = new ++ w.stack
  partials : ∀ u ∈ w.stack, w'.partialOf u = w.partialOf u

/-- What the given types have put aside is all in the set. -/
def Gathers (w : Walk) (types : List TypeName) (set : TypeSet) : Prop :=
  ∀ u ∈ types, ∀ x ∈ w.partialOf u, x ∈ set

/-- A step that leaves everything but low points and frames alone. -/
theorem Continues.of_low (horder : w'.order = w.order) (hstack : w'.stack = w.stack)
    (hpartials : w'.partials = w.partials) (hlow : ∀ u, u ≠ t → w'.lowOf u = w.lowOf u) :
    w.Continues w' t [] := by
  refine ⟨fun u hu => ?_, fun u _ hu => hlow u hu, hstack, fun u _ => ?_⟩
  · rw [orderOf, orderOf, horder]
    exact ⟨hu, rfl⟩
  · rw [partialOf, partialOf, hpartials]

theorem Continues.trans (h : w.Continues w' t new) (h' : w'.Continues w'' t new') :
    w.Continues w'' t (new' ++ new) := by
  refine ⟨fun u hu => ?_, fun u hu hne => ?_, ?_, fun u hu => ?_⟩
  · obtain ⟨hu', horder⟩ := h.order u hu
    obtain ⟨hu'', horder'⟩ := h'.order u hu'
    exact ⟨hu'', horder'.trans horder⟩
  · rw [h'.low u (h.order u hu).1 hne, h.low u hu hne]
  · rw [h'.stack, h.stack, List.append_assoc]
  · have hu' : u ∈ w'.stack := by
      rw [h.stack]
      exact List.mem_append_right _ hu
    rw [h'.partials u hu', h.partials u hu]

/-- The low point of a type that had not been entered is none that was known. -/
theorem Continues.of_fresh (h : w.Continues w' t new) (ht : t ∉ w.order) (u : TypeName) :
    w.Continues w' u new :=
  ⟨h.order, fun v hv _ => h.low v hv fun he => ht (he ▸ hv), h.stack, h.partials⟩

/-- More may be in the set, and the types may be looked at in another walk that has put the same
aside for them. -/
theorem Gathers.mono {types : List TypeName} {set' : TypeSet} (h : w.Gathers types set)
    (hset : ∀ x ∈ set, x ∈ set') (hpartials : ∀ u ∈ types, w'.partialOf u = w.partialOf u) :
    w'.Gathers types set' := by
  intro u hu x hx
  rw [hpartials u hu] at hx
  exact hset x (h u hu x hx)

/-- The walk goes on when it enters a type, which is put on the stack. -/
theorem continues_enter (isCore : Bool) (supertypes : List TypeName) (ht : t ∉ w.order) :
    w.Continues (w.enter t isCore supertypes) t [t] := by
  refine ⟨fun u hu => ⟨mem_order_enter.mpr (.inr hu), ?_⟩, fun u _ hne => ?_, rfl, fun u _ => rfl⟩
  · rw [orderOf_enter, if_neg fun he : u = t => ht (he ▸ hu)]
  · rw [lowOf_enter, if_neg hne]

/-- It goes on when a frame is left, with the frame below, whose low point becomes that of the frame
left if this is lower. -/
theorem continues_yield {f : Frame} {rest : List Frame} (set : TypeSet) (low : Nat)
    (hf : w.frames = f :: rest) :
    (w.yield set low).frames = { f with collected := f.collected ∪ set } :: rest ∧
      (w.yield set low).lowOf f.type = min (w.lowOf f.type) low ∧
      w.Continues (w.yield set low) f.type [] := by
  rw [yield_eq hf, collect_eq hf]
  refine ⟨rfl, lowOf_lower.trans (if_pos rfl), .of_low rfl rfl rfl fun u hne => ?_⟩
  exact lowOf_lower.trans (if_neg hne)

/-! ## 2. What is needed of a walk that is right -/

/-- The stack has no type twice and its members are known; the types of the frames have been
entered. -/
structure Tidy (w : Walk) : Prop where
  mem_onStack : ∀ t, t ∈ w.onStack ↔ t ∈ w.stack
  nodup : w.stack.Nodup
  entered : ∀ f ∈ w.frames, f.type ∈ w.order

theorem Sound.tidy {H : Hierarchy} {kept : TypeName → Prop} {start : TypeName}
    {awaited : Option TypeName} {parts : List Stretch}
    (h : w.Sound H kept start awaited parts) : w.Tidy := by
  refine ⟨h.mem_onStack, h.stack_eq ▸ h.nodup, fun f hf => ?_⟩
  rw [h.frames_eq] at hf
  obtain ⟨p, hp, rfl⟩ := List.mem_map.mp hf
  rw [h.entered_iff, h.stack_eq]
  exact .inl (List.mem_flatMap_of_mem hp p.root_mem_members)

/-- A root whose frame has come by all that was put aside above it has the set of its component. -/
theorem componentSet_eq {collected : TypeSet} {below : List TypeName}
    (hstack : w.stack = new ++ t :: below) (hnew : t ∉ new) (hgathers : w.Gathers new collected) :
    w.component t = new ++ [t] ∧ w.componentSet t collected = collected := by
  have htake : w.stack.takeWhile (· ≠ t) = new := by
    rw [hstack, takeWhile_ne_append hnew]
  refine ⟨by rw [component, htake], Std.ExtTreeSet.ext_mem fun x => ?_⟩
  rw [mem_componentSet, htake]
  constructor
  · rintro (hx | ⟨u, hu, hx⟩)
    · exact hx
    · exact hgathers u hu x hx
  · exact .inl

end Walk

theorem Query.Good.tidy_scan {kept : TypeName → Prop} {w : Walk}
    (h : Query.Good layer known given kept question ⟨.scan, w⟩) : w.Tidy := by
  obtain ⟨start, p, below, _, hw⟩ := h.phase
  exact hw.tidy

theorem Query.Good.tidy_enter {kept : TypeName → Prop} {w : Walk}
    (h : Query.Good layer known given kept question ⟨.enter t, w⟩) : w.Tidy ∧ t ∉ w.order := by
  obtain ⟨start, parts, _, hw, hfresh, _⟩ := h.phase
  exact ⟨hw.tidy, hfresh⟩

/-! ## 3. Closing a component -/

namespace Scene

variable {s s' final : Scene σ} {w : Walk}

/-- What a traversal knows and has done where the scene stands. -/
def trail (s : Scene σ) : Trail σ :=
  { order := s.query.walk.order
    stack := s.query.walk.stack
    finished := s.query.walk.finished
    memo := s.memo
    core := s.core
    asked := s.asked
    heard := s.heard
    stored := s.stored }

/-- The scene after the set was stored for some types, where the query goes on as `q`. -/
def storeAll (s : Scene σ) (set : TypeSet) (types : List TypeName) (q : Query) : Scene σ :=
  { s with
    query := q
    memo := types.foldl (fun memo t => memo.store t set) s.memo
    heard := (types.map (Event.mk .cacheStore)).reverse ++ s.heard
    stored := (types.map (·, set)).reverse ++ s.stored }

/-- The set is stored for the types of a component, one after the other. -/
theorem Ends.stores (hcore : core.Settled valid known) {closed : TypeSet} :
    ∀ {members : List TypeName} {n : Nat} {s : Scene σ},
      s.Good layer known given valid question → s.query = ⟨.close closed members, w⟩ →
      s.Ends layer core n set final → ∃ m,
        (s.storeAll closed members (Layer.resume w closed)).Good layer known given valid question ∧
        (s.storeAll closed members (Layer.resume w closed)).Ends layer core m set final ∧
        m < n := by
  intro members
  induction members with
  | nil =>
    intro n s hgood hq hends
    have hmove : s.Moves layer core _ := .silent (q := Layer.resume w closed) (by rw [hq]; rfl)
    obtain ⟨m, rfl, hends'⟩ := hends.next hmove
    exact ⟨m, hgood.moves hcore hmove, hends', Nat.lt_succ_self m⟩
  | cons t members ih =>
    intro n s hgood hq hends
    have hstep : layer.step s.query = .store t closed ⟨.close closed members, w⟩ := by
      rw [hq]
      rfl
    obtain ⟨m, rfl, hends'⟩ := hends.next (.store hstep)
    obtain ⟨m', hgood', hends'', hlt⟩ := ih (hgood.moves hcore (.store hstep)) rfl hends'
    refine ⟨m', ?_, ?_, Nat.lt_succ_of_lt hlt⟩
    all_goals simpa [storeAll] using ‹_›

end Scene

/-- What the traversal stores for the types of a component, all at once. -/
theorem foldl_store (set : TypeSet) (types : List TypeName) : ∀ trail : Trail σ,
    types.foldl (Trail.store set) trail =
      { trail with
        finished := types.foldl (fun m t => m.insert t set) trail.finished
        memo := types.foldl (fun memo t => memo.store t set) trail.memo
        heard := (types.map (Event.mk .cacheStore)).reverse ++ trail.heard
        stored := (types.map (·, set)).reverse ++ trail.stored } := by
  induction types with
  | nil => exact fun _ => rfl
  | cons t types ih =>
    intro trail
    rw [List.foldl_cons, ih]
    simp [Trail.store]

/-! ## 4. Leaving a frame -/

namespace Walk

variable {w w' : Walk} {f : Frame} {rest : List Frame} {new below : List TypeName}

/-- A frame was left that had `set` collected: `rest` are the frames under it, `below` is the stack
under its type, and of the types above that `new` are still there. -/
structure Leaves (w w' : Walk) (rest : List Frame) (below new : List TypeName) (set : TypeSet) :
    Prop where
  frames : w'.frames = rest
  order : w'.order = w.order
  low : w'.low = w.low
  stack : w'.stack = new ++ below
  partials : ∀ u ∈ below, w'.partialOf u = w.partialOf u
  gathers : w'.Gathers new set

/-- A walk that goes on above its stack and then leaves the frame has gone on above its stack. -/
theorem Leaves.continues {w₀ : Walk} {new' : List TypeName} (h : w₀.Continues w t new)
    (hleaves : w.Leaves w' rest w₀.stack new' set) : w₀.Continues w' t new' := by
  have horder : ∀ u, w'.orderOf u = w.orderOf u := fun u => by rw [orderOf, hleaves.order]; rfl
  have hlow : ∀ u, w'.lowOf u = w.lowOf u := fun u => by rw [lowOf, hleaves.low]; rfl
  refine ⟨fun u hu => ?_, fun u hu hne => ?_, hleaves.stack, fun u hu => ?_⟩
  · rw [hleaves.order, horder]
    exact h.order u hu
  · rw [hlow, h.low u hu hne]
  · rw [hleaves.partials u hu, h.partials u hu]

/-- What is above and below a type on the stack is not that type, nor has it anything in common. -/
theorem Tidy.apart (h : w.Tidy) (hstack : w.stack = new ++ t :: below) :
    t ∉ new ∧ ∀ u ∈ below, u ∉ new ++ [t] := by
  have hnodup := h.nodup
  rw [hstack, List.append_cons, List.nodup_append] at hnodup
  refine ⟨fun ht => ?_, fun u hu hmem => hnodup.2.2 u hmem u hu rfl⟩
  exact (List.nodup_append.mp hnodup.1).2.2 t ht t (List.mem_singleton_self t) rfl

/-- The frame of a root is left, and nothing is left above the stack of its parent. -/
theorem leaves_close (htidy : w.Tidy) (hframes : w.frames = f :: rest)
    (hstack : w.stack = new ++ f.type :: below) (hgathers : w.Gathers new set) :
    w.Leaves (({ w with frames := w.frames.tail } : Walk).closeComponent f.type set) rest below []
      set := by
  obtain ⟨hnew, hbelow⟩ := htidy.apart hstack
  have hcomponent := (componentSet_eq hstack hnew hgathers).1
  have hdrop : w.stack.dropWhile (· ≠ f.type) = f.type :: below := by
    rw [hstack, dropWhile_ne_append hnew]
  refine ⟨?_, rfl, rfl, ?_, fun u hu => ?_, fun u hu => absurd hu List.not_mem_nil⟩
  · simp [closeComponent, hframes]
  · simp only [closeComponent, hdrop, List.tail_cons, List.nil_append]
  · refine partialOf_closeComponent (w := { w with frames := w.frames.tail }) fun hmem => ?_
    exact hbelow u hu (hcomponent ▸ hmem)

/-- The frame of a type that is no root is left.  The types above stay there, and what they have put
aside is in what it has collected itself. -/
theorem leaves_aside (htidy : w.Tidy) (hframes : w.frames = f :: rest)
    (hstack : w.stack = new ++ f.type :: below) (hgathers : w.Gathers new set) :
    w.Leaves { w with frames := w.frames.tail, partials := w.partials.insert f.type set } rest below
      (new ++ [f.type]) set := by
  have hpartial : ∀ u, ({ w with partials := w.partials.insert f.type set } : Walk).partialOf u =
      if u = f.type then set else w.partialOf u := by
    intro u
    simp only [partialOf, Std.ExtTreeMap.getElem?_insert, Std.compare_eq_iff_eq,
      eq_comm (a := f.type)]
    split <;> rfl
  refine ⟨by simp [hframes], rfl, rfl, by simp [hstack], fun u hu => ?_, fun u hu x hx => ?_⟩
  · refine (hpartial u).trans (if_neg ?_)
    rintro rfl
    exact (htidy.apart hstack).2 _ hu (by simp)
  · replace hx := (hpartial u) ▸ hx
    split at hx
    · exact hx
    · next hne =>
      have hmem : u ∈ new := by simpa [hne] using hu
      exact hgathers u hmem x hx

end Walk

namespace Scene

variable {s final : Scene σ} {w : Walk} {f : Frame} {rest : List Frame}
  {new below : List TypeName}

/-- **A frame is left** whose type has all its supertypes taken, and what the traversal does before
it returns is done: the component is closed, if the low point of the type is its number. -/
theorem Ends.leaves (hcore : core.Settled valid known)
    (hgood : s.Good layer known given valid question) (hq : s.query = ⟨.scan, w⟩)
    (hframes : w.frames = f :: rest) (hpending : f.pending = [])
    (hstack : w.stack = new ++ f.type :: below) (hgathers : w.Gathers new f.collected)
    (hends : s.Ends layer core n set final) :
    ∃ (s' : Scene σ) (w' : Walk) (new' : List TypeName) (m : Nat),
      s'.query = Layer.resume (w'.yield f.collected (w.lowOf f.type)) f.collected ∧
      s'.trail = (if w.lowOf f.type = w.orderOf f.type then s.trail.close f.type f.collected
        else s.trail) ∧
      w.Leaves w' rest below new' f.collected ∧ s'.Good layer known given valid question ∧
      s'.Ends layer core m set final ∧ m < n := by
  have hgoodq := hgood.query
  rw [hq] at hgoodq
  have htidy := hgoodq.tidy_scan
  have hmove : s.Moves layer core { s with query := Layer.leave w f } :=
    .silent (by simp only [Layer.step, hq, hframes, hpending])
  obtain ⟨m, rfl, hends'⟩ := hends.next hmove
  have hgood' := hgood.moves hcore hmove
  by_cases hlow : w.lowOf f.type = w.orderOf f.type
  · obtain ⟨hcomponent, hset⟩ := Walk.componentSet_eq hstack (htidy.apart hstack).1 hgathers
    have hleave : Layer.leave w f = ⟨.close f.collected (new ++ [f.type]),
        (({ w with frames := w.frames.tail } : Walk).closeComponent f.type f.collected).yield
          f.collected (w.lowOf f.type)⟩ := by
      rw [Layer.leave, if_neg (not_not.mpr hlow), hset, hcomponent]
    rw [hleave] at hgood' hends'
    obtain ⟨m', hgood'', hends'', hlt⟩ := hends'.stores hcore hgood' rfl
    refine ⟨_, _, _, m', rfl, ?_, Walk.leaves_close htidy hframes hstack hgathers, hgood'', hends'',
      Nat.lt_succ_of_lt hlt⟩
    have htake : w.stack.takeWhile (· ≠ f.type) ++ [f.type] = new ++ [f.type] := hcomponent
    have hcomponent' :
        ({ w with frames := w.frames.tail } : Walk).component f.type = new ++ [f.type] := hcomponent
    rw [if_pos hlow, Trail.close, foldl_store]
    simp only [trail, storeAll, Layer.resume, hq, htake, Walk.order_yield, Walk.stack_yield,
      Walk.finished_yield, Walk.closeComponent, hcomponent']
  · have hleave : Layer.leave w f = Layer.resume
        (({ w with frames := w.frames.tail,
                   partials := w.partials.insert f.type f.collected } : Walk).yield f.collected
          (w.lowOf f.type)) f.collected := if_pos hlow
    rw [hleave] at hgood' hends'
    refine ⟨_, _, _, m, rfl, ?_, Walk.leaves_aside htidy hframes hstack hgathers, hgood', hends',
      Nat.lt_succ_self m⟩
    rw [if_neg hlow]
    simp only [trail, Layer.resume, hq, Walk.order_yield, Walk.stack_yield, Walk.finished_yield]

/-! ## 5. The simulation -/

/-- From the scene `s` the walk has taken all supertypes of its innermost frame `f`, which has
collected `found.1` by then and has the low point `found.2`. -/
structure Ascended (s s' : Scene σ) (f : Frame) (rest : List Frame) (found : TypeSet × Nat)
    (new : List TypeName) : Prop where
  phase : s'.query.phase = .scan
  frames : s'.query.walk.frames = ⟨f.type, [], found.1⟩ :: rest
  low : s'.query.walk.lowOf f.type = found.2
  subset : ∀ x ∈ f.collected, x ∈ found.1
  continues : s.query.walk.Continues s'.query.walk f.type new
  gathers : s'.query.walk.Gathers new found.1

/-- From the scene `s` the walk has entered `t` and left it again, with the walk `w`, and has handed
on the set `found.1` and the low point `found.2`. -/
structure Visited (s s' : Scene σ) (t : TypeName) (w : Walk) (found : TypeSet × Nat)
    (new : List TypeName) : Prop where
  query : s'.query = Layer.resume (w.yield found.1 found.2) found.1
  frames : w.frames = s.query.walk.frames
  continues : s.query.walk.Continues w t new
  gathers : w.Gathers new found.1

/-- To take one more supertype first is to take all of them. -/
theorem Ascended.head {s s₁ s' : Scene σ} {f₁ : Frame} {found : TypeSet × Nat}
    {new₁ : List TypeName} (h : s₁.Ascended s' f₁ rest found new) (htype : f₁.type = f.type)
    (hsubset : ∀ x ∈ f.collected, x ∈ f₁.collected)
    (hcontinues : s.query.walk.Continues s₁.query.walk f.type new₁)
    (hgathers : s₁.query.walk.Gathers new₁ f₁.collected) :
    s.Ascended s' f rest found (new ++ new₁) := by
  obtain ⟨hphase, hframes, hlow, hsub, hcont, hgath⟩ := h
  rw [htype] at hframes hlow hcont
  refine ⟨hphase, hframes, hlow, fun x hx => hsub x (hsubset x hx), hcontinues.trans hcont, ?_⟩
  intro u hu x hx
  rcases List.mem_append.mp hu with hu | hu
  · exact hgath u hu x hx
  · have hmem : u ∈ s₁.query.walk.stack := by
      rw [hcontinues.stack]
      exact List.mem_append_left _ hu
    rw [hcont.partials u hmem] at hx
    exact hsub x (hgathers u hu x hx)

/-- The traversal goes through the supertypes of the innermost frame as the walk does. -/
def Ascends (layer : Layer) (known : TypeName → TypeSet) (given : TypeName → Option TypeSet)
    (core : Core σ) (valid : σ → Prop) (question : Question) (set : TypeSet) (final : Scene σ)
    (n : Nat) : Prop :=
  ∀ (s : Scene σ) (f : Frame) (rest : List Frame), s.Good layer known given valid question →
    s.query.phase = .scan → s.query.walk.frames = f :: rest → s.Ends layer core n set final →
      ∃ (found : TypeSet × Nat) (s' : Scene σ) (new : List TypeName) (m : Nat),
        layer.ascend core f.pending (f.collected, s.query.walk.lowOf f.type) s.trail =
          some (found, s'.trail) ∧
        s.Ascended s' f rest found new ∧ s'.Good layer known given valid question ∧
        s'.Ends layer core m set final ∧ m ≤ n

/-- The traversal visits a type as the walk does from where it enters it until it leaves it. -/
def Visits (layer : Layer) (known : TypeName → TypeSet) (given : TypeName → Option TypeSet)
    (core : Core σ) (valid : σ → Prop) (question : Question) (set : TypeSet) (final : Scene σ)
    (n : Nat) : Prop :=
  ∀ (s : Scene σ) (t : TypeName), s.Good layer known given valid question →
    s.query.phase = .enter t → s.Ends layer core n set final →
      ∃ (found : TypeSet × Nat) (s' : Scene σ) (w : Walk) (new : List TypeName) (m : Nat),
        layer.visit core t s.trail = some (found, s'.trail) ∧ s.Visited s' t w found new ∧
        s'.Good layer known given valid question ∧ s'.Ends layer core m set final ∧ m < n

/-- What the traversal fetches when it visits a type, the walk fetches when it enters it. -/
theorem Ends.enters {s : Scene σ} (hcore : core.Settled valid known)
    (hgood : s.Good layer known given valid question) (hq : s.query = ⟨.enter t, w⟩)
    (hends : s.Ends layer core n set final) :
    ∃ (supertypes : TypeSet) (s' : Scene σ) (m : Nat),
      (s.trail.push t).supertypes layer core t = some (supertypes, s'.trail) ∧
      s'.query = ⟨.scan, w.enter t (layer.space.contains t) (layer.arrangement.list t supertypes)⟩ ∧
      s'.Good layer known given valid question ∧ s'.Ends layer core m set final ∧ n = m + 1 := by
  obtain ⟨query, memo, state, asked, heard, stored⟩ := s
  obtain rfl : query = ⟨.enter t, w⟩ := hq
  have hstep : layer.step ⟨.enter t, w⟩ = layer.fetch t fun supertypes => ⟨.scan,
      w.enter t (layer.space.contains t) (layer.arrangement.list t supertypes)⟩ := rfl
  unfold Layer.fetch at hstep
  unfold Trail.supertypes
  cases hindex : layer.index.get? t with
  | some declared =>
    simp only [hindex] at hstep
    obtain ⟨m, rfl, hends'⟩ := hends.next (.silent hstep)
    exact ⟨declared, _, m, rfl, rfl, hgood.moves hcore (.silent hstep), hends', rfl⟩
  | none =>
    simp only [hindex] at hstep
    cases hc : layer.space.contains t with
    | false =>
      simp only [hc, Bool.false_eq_true, if_false] at hstep
      obtain ⟨m, rfl, hends'⟩ := hends.next (.silent hstep)
      exact ⟨∅, _, m, rfl, rfl, hgood.moves hcore (.silent hstep), hends', rfl⟩
    | true =>
      simp only [hc, if_true] at hstep
      have hanswer := (hcore t state hgood.core).1
      have hmove :=
        Moves.core (s := ⟨⟨.enter t, w⟩, memo, state, asked, heard, stored⟩) hstep hanswer
      obtain ⟨m, rfl, hends'⟩ := hends.next hmove
      refine ⟨known t, _, m, ?_, rfl, hgood.moves hcore hmove, hends', rfl⟩
      have hcall : core.ancestors t state = (.ok (known t), (core.ancestors t state).2) :=
        Prod.ext hanswer rfl
      simp only [if_true, Trail.ask, trail, Trail.push]
      rw [hcall]
      cases hempty : (known t).isEmpty with
      | true => simp only [hempty, if_true]; rfl
      | false => simp only [hempty]; rfl

/-- After a move by which a supertype was taken, the others are taken. -/
theorem Ascends.of_move {s final : Scene σ} (s₁ : Scene σ) (f f₁ : Frame) (rest : List Frame)
    (hcore : core.Settled valid known)
    (hascends : ∀ m < n, Ascends layer known given core valid question set final m)
    (hgood : s.Good layer known given valid question) (hends : s.Ends layer core n set final)
    (hmove : s.Moves layer core s₁) (hphase : s₁.query.phase = .scan)
    (hframes : s₁.query.walk.frames = f₁ :: rest) (htype : f₁.type = f.type)
    (hsubset : ∀ x ∈ f.collected, x ∈ f₁.collected)
    (hcontinues : s.query.walk.Continues s₁.query.walk f.type []) :
    ∃ (found : TypeSet × Nat) (s' : Scene σ) (new : List TypeName) (m : Nat),
      layer.ascend core f₁.pending (f₁.collected, s₁.query.walk.lowOf f₁.type) s₁.trail =
        some (found, s'.trail) ∧
      s.Ascended s' f rest found new ∧ s'.Good layer known given valid question ∧
      s'.Ends layer core m set final ∧ m ≤ n := by
  obtain ⟨m, rfl, hends₁⟩ := hends.next hmove
  obtain ⟨found, s', new, m', hrun, hascended, hgood', hends', hle⟩ :=
    hascends m (Nat.lt_succ_self m) s₁ f₁ rest (hgood.moves hcore hmove) hphase hframes hends₁
  exact ⟨found, s', new ++ [], m', hrun, hascended.head htype hsubset hcontinues
    (fun u hu => absurd hu List.not_mem_nil), hgood', hends', Nat.le_succ_of_le hle⟩

section
variable (layer) {s : Scene σ} {u : TypeName} {pending : List TypeName}
  {collected closed : TypeSet}

/-- The walk after the first of the supertypes that are still to be taken is taken. -/
def taken (w : Walk) (t : TypeName) (pending : List TypeName) (collected : TypeSet)
    (rest : List Frame) : Walk :=
  { w with frames := ⟨t, pending, collected⟩ :: rest }

theorem step_onStack (hphase : s.query.phase = .scan)
    (hframes : s.query.walk.frames = ⟨t, u :: pending, collected⟩ :: rest)
    (hon : u ∈ s.query.walk.onStack) :
    layer.step s.query = .silent
      ⟨.scan, (taken s.query.walk t pending collected rest).lower t (s.query.walk.orderOf u)⟩ := by
  have hon' : u ∈ s.query.walk.drop.onStack := by rwa [Walk.drop_eq hframes]
  simp only [Layer.step, hphase, hframes, hon', if_true]
  rw [Walk.drop_eq hframes]
  rfl

theorem step_finished (hphase : s.query.phase = .scan)
    (hframes : s.query.walk.frames = ⟨t, u :: pending, collected⟩ :: rest)
    (hon : u ∉ s.query.walk.onStack) (hclosed : s.query.walk.finished[u]? = some closed) :
    layer.step s.query = .silent
      ⟨.scan, (taken s.query.walk t pending collected rest).collect closed⟩ := by
  have hon' : u ∉ s.query.walk.drop.onStack := by rwa [Walk.drop_eq hframes]
  have hclosed' : s.query.walk.drop.finished[u]? = some closed := by rwa [Walk.drop_eq hframes]
  simp only [Layer.step, hphase, hframes, hon', if_false, hclosed']
  rw [Walk.drop_eq hframes]
  rfl

theorem step_lookup (hphase : s.query.phase = .scan)
    (hframes : s.query.walk.frames = ⟨t, u :: pending, collected⟩ :: rest)
    (hon : u ∉ s.query.walk.onStack) (hclosed : s.query.walk.finished[u]? = none) :
    layer.step s.query = .lookup u
      (fun found => ⟨.scan, (taken s.query.walk t pending collected rest).collect found⟩)
      ⟨.enter u, taken s.query.walk t pending collected rest⟩ := by
  have hon' : u ∉ s.query.walk.drop.onStack := by rwa [Walk.drop_eq hframes]
  have hclosed' : s.query.walk.drop.finished[u]? = none := by rwa [Walk.drop_eq hframes]
  simp only [Layer.step, hphase, hframes, hon', if_false, hclosed']
  rw [Walk.drop_eq hframes]
  rfl

end

/-- A supertype that nobody knows is visited, and then the others are taken. -/
theorem Ascends.of_miss {s final : Scene σ} {u : TypeName} {pending : List TypeName}
    {collected : TypeSet} {hit : TypeSet → Query} (hcore : core.Settled valid known)
    (hvisits : ∀ m < n, Visits layer known given core valid question set final m)
    (hascends : ∀ m < n, Ascends layer known given core valid question set final m)
    (hgood : s.Good layer known given valid question) (hends : s.Ends layer core n set final)
    (hentered : t ∈ s.query.walk.order) (hset : s.memo.peek? u = none)
    (hstep : layer.step s.query =
      .lookup u hit ⟨.enter u, taken s.query.walk t pending collected rest⟩) :
    ∃ (visited found : TypeSet × Nat) (trail : Trail σ) (s' : Scene σ) (new : List TypeName)
        (m : Nat),
      layer.visit core u { s.trail with
        memo := (s.memo.get u).2, heard := ⟨.cacheMiss, u⟩ :: s.heard } = some (visited, trail) ∧
      layer.ascend core pending
        (collected ∪ visited.1, min (s.query.walk.lowOf t) visited.2) trail =
          some (found, s'.trail) ∧
      s.Ascended s' ⟨t, u :: pending, collected⟩ rest found new ∧
      s'.Good layer known given valid question ∧ s'.Ends layer core m set final ∧ m ≤ n := by
  obtain ⟨m, rfl, hends₁⟩ := hends.next (.miss hstep hset)
  have hgood₁ := hgood.moves hcore (.miss hstep hset)
  have hfresh : u ∉ s.query.walk.order := hgood₁.query.tidy_enter.2
  obtain ⟨visited, s₂, w₂, new, m₂, hvisit, ⟨hq₂, hframes₂, hcontinues₂, hgathers₂⟩, hgood₂, hends₂,
    hlt⟩ := hvisits m (Nat.lt_succ_self m) _ u hgood₁ rfl hends₁
  -- The walk has left the type again, and the frame under it goes on with what it was handed.
  obtain ⟨hyield, hlow, hcontinues⟩ := Walk.continues_yield visited.1 visited.2 hframes₂
  have hscan : s₂.query = ⟨.scan, w₂.yield visited.1 visited.2⟩ := by
    rw [hq₂, Layer.resume, hyield]
    rfl
  obtain ⟨found, s', new', m', hrun, hascended, hgood', hends', hle⟩ :=
    hascends m₂ (Nat.lt_succ_of_lt hlt) s₂ _ rest hgood₂ (by rw [hscan])
      (by rw [hscan]; exact hyield) hends₂
  have htaken : s.query.walk.Continues (taken s.query.walk t pending collected rest) t [] :=
    .of_low rfl rfl rfl fun _ _ => rfl
  have htop : s.query.walk.Continues s₂.query.walk t ([] ++ (new ++ [])) := by
    rw [hscan]
    exact (htaken.trans (hcontinues₂.of_fresh hfresh t)).trans hcontinues
  have hgathers : s₂.query.walk.Gathers ([] ++ (new ++ [])) (collected ∪ visited.1) := by
    rw [hscan, List.append_nil, List.nil_append]
    refine hgathers₂.mono (fun x hx => Std.ExtTreeSet.mem_union_iff.mpr (.inr hx))
      fun v hv => hcontinues.partials v ?_
    rw [hcontinues₂.stack]
    exact List.mem_append_left _ hv
  have hsame : w₂.lowOf t = s.query.walk.lowOf t :=
    hcontinues₂.low t hentered fun he => hfresh (he ▸ hentered)
  rw [hscan] at hrun
  simp only [hlow, hsame] at hrun
  exact ⟨visited, found, s₂.trail, s', _, m', hvisit, hrun, hascended.head rfl
    (fun x hx => Std.ExtTreeSet.mem_union_iff.mpr (.inl hx)) htop hgathers, hgood', hends',
    Nat.le_trans hle (Nat.le_of_lt (Nat.lt_succ_of_lt hlt))⟩

/-- **To go through a list of supertypes** is to take the first one and go through the others. -/
theorem ascends_step {final : Scene σ} (hcore : core.Settled valid known)
    (hvisits : ∀ m < n, Visits layer known given core valid question set final m)
    (hascends : ∀ m < n, Ascends layer known given core valid question set final m) :
    Ascends layer known given core valid question set final n := by
  rintro s ⟨t, pending, collected⟩ rest hgood hphase hframes hends
  have hq : s.query = ⟨.scan, s.query.walk⟩ := by rw [← hphase]
  cases pending with
  | nil =>
    refine ⟨(collected, s.query.walk.lowOf t), s, [], n, ascend_nil, ?_, hgood, hends,
      Nat.le_refl n⟩
    exact ⟨hphase, hframes, rfl, fun _ hx => hx, .of_low rfl rfl rfl fun _ _ => rfl,
      fun u hu => absurd hu List.not_mem_nil⟩
  | cons u pending =>
    have htidy := (hq ▸ hgood.query).tidy_scan
    have hunion : ∀ closed : TypeSet, ∀ x ∈ collected, x ∈ collected ∪ closed :=
      fun closed x hx => Std.ExtTreeSet.mem_union_iff.mpr (.inl hx)
    have hgoes := fun (s₁ : Scene σ) (collected₁ : TypeSet) => Ascends.of_move s₁
      ⟨t, u :: pending, collected⟩ ⟨t, pending, collected₁⟩ rest hcore hascends hgood hends
    by_cases hon : u ∈ s.trail.stack
    -- The cases are those of the traversal: the supertype is on the stack, closed in this query, in
    -- the memo, or known to nobody.
    · have hstep := step_onStack layer hphase hframes ((htidy.mem_onStack u).mpr hon)
      have hrest := hgoes _ collected (.silent hstep) rfl rfl rfl (fun _ hx => hx)
        (.of_low rfl rfl rfl fun v hne => Walk.lowOf_lower.trans (if_neg hne))
      simp only [Walk.lowOf_lower, if_true] at hrest
      simp only [ascend_onStack hon]
      exact hrest
    have hoff : u ∉ s.query.walk.onStack := fun hmem => hon ((htidy.mem_onStack u).mp hmem)
    cases hfinished : s.trail.finished[u]? with
    | some closed =>
      have hstep := step_finished layer hphase hframes hoff hfinished
      have hrest := hgoes _ (collected ∪ closed) (.silent hstep) rfl rfl rfl (hunion closed)
        (.of_low rfl rfl rfl fun _ _ => rfl)
      simp only [ascend_finished hon hfinished]
      exact hrest
    | none =>
      have hstep := step_lookup layer hphase hframes hoff hfinished
      cases hset : s.trail.memo.peek? u with
      | some closed =>
        have hrest := hgoes _ (collected ∪ closed) (.hit hstep hset) rfl rfl rfl (hunion closed)
          (.of_low rfl rfl rfl fun _ _ => rfl)
        simp only [ascend_hit hon hfinished hset]
        exact hrest
      | none =>
        have hentered : t ∈ s.query.walk.order :=
          htidy.entered ⟨t, u :: pending, collected⟩ (hframes ▸ List.mem_cons_self)
        obtain ⟨visited, found, trail, s', new, m, hvisit, hrun, hrest⟩ :=
          Ascends.of_miss hcore hvisits hascends hgood hends hentered hset hstep
        refine ⟨found, s', new, m, ?_, hrest⟩
        rw [ascend_miss hon hfinished hset]
        exact (congrArg (Option.bind · _) hvisit).trans hrun

/-- **To visit a type** is to enter it, to go through its supertypes and to leave it. -/
theorem visits_step {final : Scene σ} (hcore : core.Settled valid known)
    (hascends : ∀ m < n, Ascends layer known given core valid question set final m) :
    Visits layer known given core valid question set final n := by
  intro s t hgood hphase hends
  have hq : s.query = ⟨.enter t, s.query.walk⟩ := by rw [← hphase]
  have hfresh := (hq ▸ hgood.query).tidy_enter.2
  obtain ⟨supertypes, s₁, m, hfetch, hq₁, hgood₁, hends₁, rfl⟩ := hends.enters hcore hgood hq
  obtain ⟨found, s₂, new, m₂, hrun, hascended, hgood₂, hends₂, hle⟩ :=
    hascends m (Nat.lt_succ_self m) s₁ _ _ hgood₁ (by rw [hq₁]) (by rw [hq₁]; rfl) hends₁
  obtain ⟨hphase₂, hframes₂, hlow₂, _, hcontinues, hgathers⟩ := hascended
  rw [hq₁] at hcontinues hrun
  have hentered := Walk.continues_enter (layer.space.contains t)
    (layer.arrangement.list t supertypes) hfresh
  have hnumber : s₂.query.walk.orderOf t = s.query.walk.order.size := by
    rw [(hcontinues.order t (Walk.mem_order_enter.mpr (.inl rfl))).2, Walk.orderOf_enter,
      if_pos rfl]
  obtain ⟨s₃, w₃, new₃, m₃, hq₃, htrail, hleaves, hgood₃, hends₃, hlt⟩ :=
    hends₂.leaves hcore hgood₂ (w := s₂.query.walk) (by rw [← hphase₂]) hframes₂ rfl
      hcontinues.stack hgathers
  rw [hlow₂] at hq₃ htrail
  rw [hnumber] at htrail
  refine ⟨found, s₃, w₃, new₃, m₃, ?_, ⟨hq₃, hleaves.frames, ?_, hleaves.gathers⟩, hgood₃, hends₃,
    by omega⟩
  · rw [Layer.visit, hfetch]
    simp only [Walk.lowOf_enter, if_true] at hrun
    refine (congrArg (Option.bind · _) hrun).trans ?_
    have hsize : s.trail.order.size = s.query.walk.order.size := rfl
    rw [htrail, ← hsize]
    simp only [Option.bind_some]
    split <;> rfl
  · exact hleaves.continues (hentered.trans hcontinues)

/-- **Whatever the walk does from a scene on, the traversal does.** -/
theorem simulates {final : Scene σ} (hcore : core.Settled valid known) (n : Nat) :
    Visits layer known given core valid question set final n ∧
      Ascends layer known given core valid question set final n := by
  induction n using Nat.strongRecOn with
  | ind n ih =>
    have hascends := fun m hm => (ih m hm).2
    exact ⟨visits_step hcore hascends, ascends_step hcore (fun m hm => (ih m hm).1) hascends⟩

end Scene

/-! ## 6. The theorem -/

/-- The session that walks from `t`, of which nobody but a log hears. -/
def walking (t : TypeName) (memo : Memo) (state : σ) : Session σ Watch :=
  ⟨⟨t, ⟨.enter t, .empty⟩, none⟩, [], ⟨memo, state, { hooks := [] }⟩⟩

/-- **The walk does what the recursive traversal does.**  From a type that is not in the memo the
traversal comes to an end, and given the turns that any query has, so does the walk.  Both have the
same set then, and they have asked the core registry the same questions, told of the same events and
stored the same sets in the memo, each in the same order. -/
theorem walk_eq_visit (layer : Layer) (core : Registry) {state : core.State}
    (hsound : core.Sound state) (hpatient : core.Patient state) (memo : Memo) {t : TypeName}
    (hnew : memo.peek? t = none) :
    ∃ set low trail,
      layer.visit core.toCore.recorded t { memo := memo, core := (state, []) } =
        some ((set, low), trail) ∧
      trail.core.2 = trail.asked ∧
      ∀ turns, layer.bound core.toCore ≤ turns →
        (walking t memo (state, [])).run layer core.toCore.recorded .hooks turns =
          .ended (.ok set)
            ⟨trail.memo, trail.core, { hooks := [], log := trail.heard.map .event }⟩ ∧
        (walking t memo (state, [])).writes layer core.toCore.recorded .hooks turns =
          trail.stored.reverse := by
  have hcore := core.settled.recorded
  obtain ⟨names, hlen, hspans⟩ := core.answers_answer.spans layer
  let s : Scene (core.State × List TypeName) :=
    { query := ⟨.enter t, .empty⟩, memo := memo, core := (state, []) }
  have hgood : s.Good layer core.answer memo.peek? (fun s => core.Sound s.1 ∧ core.Patient s.1)
      (.closure t) :=
    ⟨⟨hsound, hpatient⟩, Scene.sound_given memo, fun _ _ h => h, .of_empty
      ⟨t, [], rfl, Walk.sound_empty t, by simp [Walk.empty], hnew, fun _ => rfl⟩⟩
  -- A query for the closure begins with a lookup, and where that finds nothing the walk begins.
  have hturns : s.query.turnsLeft ((Question.closure t).within names) ≤ layer.bound core.toCore :=
    Nat.le_trans (Nat.le_add_right _ 2) (turnsLeft_start_le hlen (.closure t))
  have hends := fun turns (hle : layer.bound core.toCore ≤ turns) =>
    Scene.exists_ends (hspans.covers (.closure t)) hcore t [] turns hgood (Nat.le_trans hturns hle)
  obtain ⟨n, set, final, hfinal, _⟩ := hends _ (Nat.le_refl _)
  obtain ⟨found, s', w', new, m, hvisit, hvisited, hgood', hends', _⟩ :=
    (Scene.simulates hcore n).1 s t hgood rfl hfinal
  -- There is no frame left, so the set is the answer.
  have hanswer : layer.step s'.query = .answer found.1 := by
    have hframes : (w'.yield found.1 found.2).frames = [] := by
      rw [Walk.yield_nil hvisited.frames]
      exact hvisited.frames
    rw [hvisited.query, Layer.resume, hframes]
    rfl
  obtain ⟨hset, hsame⟩ := hends'.done hanswer
  have hasked : final.core.2 = final.asked := by
    simpa using hfinal.recorded [] rfl
  subst hset
  refine ⟨found.1, found.2, s'.trail, hvisit, hsame ▸ hasked, fun turns hle => ?_⟩
  obtain ⟨n', set', final', hfinal', hrun, hwrites⟩ := hends turns hle
  obtain ⟨rfl, rfl, rfl⟩ := hfinal.unique hfinal'
  rw [← hsame]
  refine ⟨hrun.trans ?_, hwrites⟩
  simp only [Scene.world, List.append_nil]
  rfl

/-- A cycle under a type that is in the memo, over a core registry that is a layer itself. -/
theorem walk_eq_visit_cycle :
    let below : Layer := ⟨.standard, .ofEntries [("org/gradle/D", .ofNames ["org/gradle/E"])],
      .ascending⟩
    let core : Registry := .layered below [] .empty
    let layer : Layer := ⟨.standard, .ofEntries [("a", .ofNames ["b"]),
      ("b", .ofNames ["a", "org/gradle/C", "org/gradle/D"])], .ascending⟩
    let memo := Memo.empty.store "org/gradle/C" (.ofNames ["org/gradle/C"])
    (core.Sound core.fresh ∧ core.Patient core.fresh ∧ memo.peek? "a" = none) ∧
      ∃ set low trail,
        layer.visit core.toCore.recorded "a" { memo := memo, core := (core.fresh, []) } =
          some ((set, low), trail) ∧
        (walking "a" memo (core.fresh, [])).writes layer core.toCore.recorded .hooks
          (layer.bound core.toCore) = trail.stored.reverse := by
  intro below core layer memo
  have hpatient : core.Patient core.fresh := Registry.patient_unhooked core
  have hnew : memo.peek? "a" = none := by decide +kernel
  obtain ⟨set, low, trail, hvisit, _, hwalk⟩ :=
    walk_eq_visit layer core core.sound_fresh hpatient memo hnew
  exact ⟨⟨core.sound_fresh, hpatient, hnew⟩, set, low, trail, hvisit, (hwalk _ (Nat.le_refl _)).2⟩

end Ancestry.Closure
