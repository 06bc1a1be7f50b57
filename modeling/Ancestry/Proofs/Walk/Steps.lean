import Ancestry.Proofs.Walk.Invariant

/-!
# A walk stays sound

One theorem for each thing that a walk does.  A supertype is taken off the innermost frame first,
and is awaited from then on (`Sound.take`); what becomes of it is one of three: it is on the stack
(`Sound.lower`), its set is known (`Sound.collect`), or it is entered (`Sound.enter`).  A frame
whose supertypes are all taken is left in one of two ways: its type joins the stretch below
(`Sound.setAside`), or its component is closed (`Sound.closeComponent`), which leaves the frame
underneath to await the type once more, until it is handed the set (`Sound.yield`).
-/

namespace Ancestry.Closure.Walk

open Stretch

variable {H : Hierarchy} {kept : TypeName → Prop} {w w' : Walk} {start s t : TypeName}
  {p q : Stretch} {below rest : List Stretch} {awaited awaited' : Option TypeName}
  {set : TypeSet}

/-! ## 1. Numbers along the stack -/

theorem Sound.root_le (h : w.Sound H kept start awaited (p :: below)) (ht : t ∈ p.members) :
    w.orderOf p.root ≤ w.orderOf t := by
  have hdesc := h.descending
  rw [h.stack_eq, spread_cons, List.pairwise_append] at hdesc
  have hmem := (List.pairwise_append.mp hdesc.1).2.2
  rcases Stretch.mem_members.mp ht with ht | rfl
  · exact Nat.le_of_lt (hmem t ht p.root (by simp))
  · exact Nat.le_refl _

theorem Sound.lt_root (h : w.Sound H kept start awaited (p :: below)) (ht : t ∈ spread below) :
    w.orderOf t < w.orderOf p.root := by
  have hdesc := h.descending
  rw [h.stack_eq, spread_cons, List.pairwise_append] at hdesc
  exact hdesc.2.2 p.root p.root_mem_members t ht

theorem Sound.root_notMem (h : w.Sound H kept start awaited (p :: below)) :
    p.root ∉ spread below :=
  fun hmem => Nat.lt_irrefl _ (h.lt_root hmem)

theorem Sound.notMem_members (h : w.Sound H kept start awaited (p :: below))
    (ht : t ∈ spread below) : t ∉ p.members := by
  intro hm
  have h1 := h.root_le hm
  have h2 := h.lt_root ht
  omega

/-- A type that is neither on the stack nor has a known set was not entered. -/
theorem Sound.notMem_order {parts : List Stretch} (h : w.Sound H kept start awaited parts)
    (hstack : t ∉ w.onStack) (hset : t ∉ w.finished) : t ∉ w.order := by
  rw [h.entered_iff, not_or, ← h.mem_onStack]
  exact ⟨hstack, hset⟩

/-! ## 2. The innermost frame -/

/-- The frame of the uppermost stretch may go on, and its root get another low point, as long as
what is known of a stretch holds for them. -/
theorem Sound.update (pending : List TypeName) (collected : TypeSet)
    (h : w.Sound H kept start awaited (p :: below))
    (hw : w' = { w with frames := (p.update pending collected).frame :: below.map (·.frame),
                        low := w'.low })
    (hlow : ∀ t ∈ spread below, w'.lowOf t = w.lowOf t)
    (hkeeps : w'.Keeps H kept awaited' (p.update pending collected) below) :
    w'.Sound H kept start awaited' (p.update pending collected :: below) := by
  have hstack : w'.stack = w.stack := by rw [hw]
  have hon : w'.onStack = w.onStack := by rw [hw]
  have horder : w'.order = w.order := by rw [hw]
  have hfin : w'.finished = w.finished := by rw [hw]
  have hpart : w'.partials = w.partials := by rw [hw]
  have hof : ∀ t, w'.orderOf t = w.orderOf t := fun t => by rw [orderOf, horder]; rfl
  have hframes : w'.frames = (p.update pending collected).frame :: below.map (·.frame) := by
    rw [hw]
  refine ⟨hframes, hstack.trans h.stack_eq, ?_, ?_, ?_, ?_, ?_, ⟨hkeeps, ?_⟩, ?_, ?_, ?_⟩
  · rw [hon, hstack]; exact h.mem_onStack
  · rw [hstack]; simpa only [hof] using h.descending
  · rw [horder, hstack, hfin]; exact h.entered_iff
  · rw [hstack, hfin]; exact h.apart
  · rw [horder]; simpa only [hof] using h.order_lt
  · refine h.keeps.2.mono ⟨fun t _ => hof t, hlow, fun t _ => ?_, fun t ht => ?_⟩
    · rw [partialOf, hpart]; rfl
    · rw [hfin]; exact ht
  · refine ⟨?_, ?_, ?_⟩
    · rw [hfin]; exact h.finished.unset
    · rw [hfin]; exact h.finished.denotes
    · rw [hfin]; exact h.finished.above
  · rw [horder]; exact h.reached
  · have hlast := h.start_last
    cases below with
    | nil => simpa [Stretch.update, Stretch.root] using hlast
    | cons q rest => simpa using hlast

/-- **A supertype is taken**: from then on it is awaited. -/
theorem Sound.take {pending : List TypeName} (h : w.Sound H kept start none (p :: below))
    (hp : p.frame.pending = s :: pending) :
    w.drop.Sound H kept start (some s) (p.update pending p.frame.collected :: below) := by
  have hframes : w.frames = p.frame :: below.map (·.frame) := h.frames_eq
  rw [drop_eq hframes, hp, List.tail_cons]
  refine h.update _ _ rfl (fun _ _ => rfl) ?_
  have hkeeps := h.keeps.1
  exact hkeeps.update (fun _ hk => hk) (fun _ _ => rfl) (fun _ _ => rfl) (Nat.le_refl _)
    hkeeps.low_reached (fun _ hx => hx) hkeeps.frame.sound
    (fun u hu => .inl (by simpa [hp] using hu)) (fun u hu => by simpa [hp] using hu)

/-- **The awaited supertype is on the stack**: the low point of the root goes down to its
number. -/
theorem Sound.lower (h : w.Sound H kept start (some s) (p :: below)) (hs : s ∈ w.onStack) :
    (w.lower p.root (w.orderOf s)).Sound H kept start none (p :: below) := by
  have hmem : s ∈ spread (p :: below) := by rw [← h.stack_eq, ← h.mem_onStack]; exact hs
  have hlow : (w.lower p.root (w.orderOf s)).lowOf p.root = min (w.lowOf p.root) (w.orderOf s) := by
    rw [lowOf_lower, if_pos rfl]
  have hframes : w.frames = p.frame :: below.map (·.frame) := h.frames_eq
  have hkeeps := h.keeps.1
  refine h.update p.frame.pending p.frame.collected ?_ ?_ ?_
  · rw [Walk.lower, hframes]; rfl
  · intro u hu
    have hne : u ≠ p.root := fun he => h.root_notMem (he ▸ hu)
    rw [lowOf_lower, if_neg hne]
  · refine hkeeps.update (fun _ hk => hk) (fun _ _ => rfl) (fun _ _ => rfl) ?_ ?_ (fun _ hx => hx)
      hkeeps.frame.sound ?_ (fun u hu => by simp_all)
    · rw [hlow]; exact Nat.min_le_left _ _
    · rw [hlow]
      by_cases hle : w.lowOf p.root ≤ w.orderOf s
      · rw [Nat.min_eq_left hle]
        exact hkeeps.low_reached
      · rw [Nat.min_eq_right (by omega)]
        exact ⟨s, hmem, rfl, .single hkeeps.leads⟩
    · intro u hu
      rcases List.mem_cons.mp hu with rfl | hu
      · refine .inr (.inr ⟨hmem, ?_⟩)
        rw [hlow]
        exact Nat.min_le_right _ _
      · exact .inl hu

/-- **The set of the awaited supertype is known**: it goes into what the frame collects. -/
theorem Sound.collect (h : w.Sound H kept start (some s) (p :: below))
    (hknown : s ∈ w.finished ∨ kept s) (hset : H.Denotes set s) :
    (w.collect set).Sound H kept start none
      (p.update p.frame.pending (p.frame.collected ∪ set) :: below) := by
  have hframes : w.frames = p.frame :: below.map (·.frame) := h.frames_eq
  have hkeeps := h.keeps.1
  rw [collect_eq hframes]
  refine h.update _ _ rfl (fun _ _ => rfl) ?_
  refine hkeeps.update (fun _ hk => hk) (fun _ _ => rfl) (fun _ _ => rfl) (Nat.le_refl _)
    hkeeps.low_reached ?_ ?_ ?_ (fun u hu => by simp_all)
  · intro x hx
    exact Std.ExtTreeSet.mem_union_iff.mpr (.inl hx)
  · intro x hx
    rcases Std.ExtTreeSet.mem_union_iff.mp hx with hx | hx
    · exact hkeeps.frame.sound x hx
    · exact .above hkeeps.leads ((hset x).mp hx)
  · intro u hu
    rcases List.mem_cons.mp hu with rfl | hu
    · exact .inr (.inl ⟨hknown, fun x hx =>
        Std.ExtTreeSet.mem_union_iff.mpr (.inr ((hset x).mpr hx))⟩)
    · exact .inl hu

/-- A stretch that consists of the root alone, and from which nothing has been taken yet. -/
theorem keeps_fresh {f : Frame} {parts : List Stretch} (hunset : H.given f.type = none)
    (hcollected : ∀ x, x ∈ f.collected ↔ H.isCore f.type = true ∧ x = f.type)
    (hpending : ∀ s, s ∈ f.pending ↔ s ∈ H.above f.type)
    (hlow : w.lowOf f.type = w.orderOf f.type) : w.Keeps H kept none ⟨f, []⟩ parts := by
  refine ⟨⟨hunset, ?_, ?_, ?_⟩, by simp, by simp, by simp, Nat.le_of_eq hlow, ?_, ?_⟩
  · intro hc
    exact (hcollected f.type).mpr ⟨hc, rfl⟩
  · intro x hx
    obtain ⟨hc, rfl⟩ := (hcollected x).mp hx
    exact .self hunset hc
  · intro s hs
    exact .inl ((hpending s).mpr hs)
  · exact ⟨f.type, by simp [Stretch.root], hlow.symm, .refl⟩
  · intro s hs
    exact (hpending s).mp hs

/-- A type that is entered is not on the stack already. -/
theorem Sound.ne_of_fresh {parts : List Stretch} (h : w.Sound H kept start awaited parts)
    (hfresh : t ∉ w.order) (hs : s ∈ w.stack) : s ≠ t :=
  fun he => hfresh (he ▸ (h.entered_iff s).mpr (.inl hs))

/-- Entering a type gives the greatest number to it and leaves the stack its numbers. -/
theorem Sound.descending_enter {parts : List Stretch} {isCore : Bool} {supertypes : List TypeName}
    (h : w.Sound H kept start awaited parts) (hfresh : t ∉ w.order) :
    (w.enter t isCore supertypes).stack.Pairwise fun a b =>
      (w.enter t isCore supertypes).orderOf b < (w.enter t isCore supertypes).orderOf a := by
  have hother : ∀ u ∈ w.stack, (w.enter t isCore supertypes).orderOf u = w.orderOf u := by
    intro u hu
    rw [orderOf_enter, if_neg (h.ne_of_fresh hfresh hu)]
  refine List.pairwise_cons.mpr ⟨?_, ?_⟩
  · intro u hu
    rw [hother u hu, orderOf_enter, if_pos rfl]
    exact h.order_lt u ((h.entered_iff u).mpr (.inl hu))
  · refine h.descending.imp_of_mem ?_
    intro a b ha hb hab
    rw [hother a ha, hother b hb]
    exact hab

/-- What is known of the stack is known of it when a type that is not on it is entered. -/
theorem Sound.keeps_enter {parts : List Stretch} {isCore : Bool} {supertypes : List TypeName}
    (h : w.Sound H kept start awaited parts) (hfresh : t ∉ w.order) :
    (w.enter t isCore supertypes).KeepsAll H kept awaited parts := by
  refine KeepsAll.mono (w := w) ⟨?_, ?_, fun _ _ => rfl, fun _ hu => hu⟩ h.keeps
  · intro u hu
    rw [orderOf_enter, if_neg (h.ne_of_fresh hfresh (h.stack_eq ▸ hu))]
  · intro u hu
    rw [lowOf_enter, if_neg (h.ne_of_fresh hfresh (h.stack_eq ▸ hu))]

/-- What is entered is reached: it is where the walk starts, or a supertype of the root that awaits
it. -/
theorem Sound.reaches_awaited {parts : List Stretch} (h : w.Sound H kept start (some t) parts)
    (hstart : parts = [] → t = start) : H.Reaches start t := by
  cases parts with
  | nil =>
    rw [hstart rfl]
    exact .refl
  | cons p below =>
    have hp : p.root ∈ w.stack := by
      rw [h.stack_eq]
      simp
    exact (h.reached p.root ((h.entered_iff _).mpr (.inl hp))).tail h.keeps.1.leads

/-- **The awaited supertype is entered**: it gets the next number, and a stretch of its own. -/
theorem Sound.enter {parts : List Stretch} {supertypes : List TypeName}
    (h : w.Sound H kept start (some t) parts) (hfresh : t ∉ w.order) (hunset : H.given t = none)
    (hstart : parts = [] → t = start) (hsup : ∀ s, s ∈ supertypes ↔ s ∈ H.above t) :
    (w.enter t (H.isCore t) supertypes).Sound H kept start none
      (⟨⟨t, supertypes, if H.isCore t then TypeSet.ofNames [t] else ∅⟩, []⟩ :: parts) := by
  refine ⟨?_, ?_, ?_, h.descending_enter hfresh, ?_, ?_, ?_, ⟨?_, h.keeps_enter hfresh⟩,
    ⟨h.finished.unset, h.finished.denotes, h.finished.above⟩, ?_, ?_⟩
  · simp [Walk.enter, h.frames_eq]
  · simp [Walk.enter, h.stack_eq, Stretch.members, Stretch.root]
  · intro u
    rw [mem_onStack_enter, h.mem_onStack]
    exact List.mem_cons.symm
  · intro u
    rw [mem_order_enter, h.entered_iff]
    simp [Walk.enter, or_assoc]
  · intro u hu
    rcases List.mem_cons.mp hu with rfl | hu
    · exact fun hf => hfresh ((h.entered_iff u).mpr (.inr hf))
    · exact h.apart u hu
  · intro u hu
    rw [size_order_enter hfresh, orderOf_enter]
    rcases mem_order_enter.mp hu with rfl | hu
    · rw [if_pos rfl]
      omega
    · have hlt := h.order_lt u hu
      split <;> omega
  · refine keeps_fresh hunset ?_ hsup ?_
    · intro x
      by_cases hc : H.isCore t = true <;> simp [hc]
    · rw [lowOf_enter, orderOf_enter, if_pos rfl, if_pos rfl]
  · intro u hu
    rcases mem_order_enter.mp hu with rfl | hu
    · exact h.reaches_awaited hstart
    · exact h.reached u hu
  · cases parts with
    | nil => simpa [Stretch.root] using hstart rfl
    | cons p below => simpa using h.start_last

/-! ## 3. Leaving a frame whose component stays open -/

/-- A root whose low point is not its own number reaches the root below it. -/
theorem Sound.reaches_below (h : w.Sound H kept start awaited (p :: q :: rest))
    (hlow : w.lowOf p.root ≠ w.orderOf p.root) : H.Reaches p.root q.root := by
  obtain ⟨s, hs, hso, hr⟩ := h.keeps.1.low_reached
  have hle := h.keeps.1.low_le
  rcases List.mem_append.mp hs with hs | hs
  · have hroot := h.root_le hs
    omega
  · exact hr.trans (h.keeps.2.reaches_head hs)

/-- The stretch of the frame below, when the stretch `p` above it has joined it. -/
def join (p q : Stretch) : Stretch :=
  ⟨{ q.frame with collected := q.frame.collected ∪ p.frame.collected }, p.members ++ q.ended⟩

theorem spread_join : spread (join p q :: rest) = spread (p :: q :: rest) := by
  simp [join, Stretch.members, Stretch.root]

/-- The walk `w'` has put aside what the root of `p` had collected in `w`, and the root of `q` has
been handed its low point. -/
structure Joins (kept : TypeName → Prop) (w w' : Walk) (p q : Stretch) : Prop where
  order : ∀ t, w'.orderOf t = w.orderOf t
  low : w'.lowOf q.root = min (w.lowOf q.root) (w.lowOf p.root)
  partials : ∀ t, w'.partialOf t = if t = p.root then p.frame.collected else w.partialOf t
  known : ∀ t, t ∈ w.finished ∨ kept t → t ∈ w'.finished ∨ kept t

/-- What was no lower than the low point of the upper stretch is no lower than that of both. -/
theorem Joins.upper (hj : Joins kept w w' p q) (hs : s ∈ spread (p :: q :: rest))
    (hle : w.lowOf p.root ≤ w.orderOf s) :
    s ∈ spread (join p q :: rest) ∧ w'.lowOf q.root ≤ w'.orderOf s := by
  rw [spread_join, hj.low, hj.order]
  exact ⟨hs, Nat.le_trans (Nat.min_le_right _ _) hle⟩

/-- And so is what was no lower than the low point of the lower stretch. -/
theorem Joins.lower (hj : Joins kept w w' p q) (hs : s ∈ spread (q :: rest))
    (hle : w.lowOf q.root ≤ w.orderOf s) :
    s ∈ spread (join p q :: rest) ∧ w'.lowOf q.root ≤ w'.orderOf s := by
  rw [spread_join, hj.low, hj.order]
  exact ⟨List.mem_append.mpr (.inr hs), Nat.le_trans (Nat.min_le_left _ _) hle⟩

/-- The root of the lower stretch no longer awaits the upper one, which is on the stack. -/
theorem Sound.frame_join (h : w.Sound H kept start none (p :: q :: rest))
    (hj : Joins kept w w' p q) :
    w'.Holds H kept (spread (join p q :: rest)) (w'.lowOf q.root) q.frame.pending
      (q.frame.collected ∪ p.frame.collected) q.root := by
  have hkp := h.keeps.1
  have hkq := h.keeps.2.1
  refine hkq.frame.mono hj.known ?_ ?_ ?_ (fun s hs hle => .inr (.inr (hj.lower hs hle)))
  · intro x hx
    exact Std.ExtTreeSet.mem_union_iff.mpr (.inl hx)
  · intro x hx
    rcases Std.ExtTreeSet.mem_union_iff.mp hx with hx | hx
    · exact hkq.frame.sound x hx
    · exact .above hkq.leads (hkp.frame.sound x hx)
  · intro s hs
    rcases List.mem_cons.mp hs with rfl | hs
    · exact .inr (.inr (hj.upper (by simp) hkp.low_le))
    · exact .inl hs

/-- The root of the upper stretch is a type now whose walk has ended, like the others above it, and
like those above the root of the lower stretch. -/
theorem Sound.ended_join (h : w.Sound H kept start none (p :: q :: rest))
    (hp : p.frame.pending = []) (hj : Joins kept w w' p q) {e : TypeName}
    (he : e ∈ p.members ++ q.ended) :
    w'.Holds H kept (spread (join p q :: rest)) (w'.lowOf q.root) [] (w'.partialOf e) e := by
  have hkp := h.keeps.1
  have hkq := h.keeps.2.1
  rw [hj.partials e]
  rcases List.mem_append.mp he with he | he
  · rcases Stretch.mem_members.mp he with he | rfl
    · have hne : e ≠ p.root := fun heq => root_notMem_ended h.nodup (heq ▸ he)
      rw [if_neg hne]
      exact (hkp.ended e he).mono hj.known (fun _ hx => hx) (hkp.ended e he).sound
        (fun s hs => .inl hs) (fun s hs hle => .inr (.inr (hj.upper hs hle)))
    · rw [if_pos rfl]
      exact hkp.frame.mono hj.known (fun _ hx => hx) hkp.frame.sound
        (fun s hs => by simp [hp] at hs) (fun s hs hle => .inr (.inr (hj.upper hs hle)))
  · have hne : e ≠ p.root := fun heq => h.root_notMem (heq ▸ by simp [he])
    rw [if_neg hne]
    exact (hkq.ended e he).mono hj.known (fun _ hx => hx) (hkq.ended e he).sound
      (fun s hs => .inl hs) (fun s hs hle => .inr (.inr (hj.lower hs hle)))

/-- Both roots reach each other, so the types of both stretches lie on cycles through the lower
root. -/
theorem Sound.cycles_join (h : w.Sound H kept start none (p :: q :: rest))
    (hlow : w.lowOf p.root ≠ w.orderOf p.root) {e : TypeName} (he : e ∈ p.members ++ q.ended) :
    H.Reaches q.root e ∧ H.Reaches e q.root := by
  have hkp := h.keeps.1
  have hkq := h.keeps.2.1
  have hqp : H.Reaches q.root p.root := .single hkq.leads
  have hpq : H.Reaches p.root q.root := h.reaches_below hlow
  rcases List.mem_append.mp he with he | he
  · rcases Stretch.mem_members.mp he with he | rfl
    · exact ⟨hqp.trans (hkp.down e he), (hkp.up e he).trans hpq⟩
    · exact ⟨hqp, hpq⟩
  · exact ⟨hkq.down e he, hkq.up e he⟩

/-- The lesser of the two low points is the number of a type that the lower root reaches. -/
theorem Sound.low_join (h : w.Sound H kept start none (p :: q :: rest))
    (hj : Joins kept w w' p q) :
    ∃ s ∈ spread (join p q :: rest),
      w'.orderOf s = w'.lowOf q.root ∧ H.Reaches q.root s := by
  have hkp := h.keeps.1
  have hkq := h.keeps.2.1
  rw [spread_join, hj.low]
  by_cases hle : w.lowOf q.root ≤ w.lowOf p.root
  · obtain ⟨s, hs, hso, hr⟩ := hkq.low_reached
    exact ⟨s, List.mem_append.mpr (.inr hs), by rw [hj.order, hso, Nat.min_eq_left hle], hr⟩
  · obtain ⟨s, hs, hso, hr⟩ := hkp.low_reached
    have hqp : H.Reaches q.root p.root := .single hkq.leads
    exact ⟨s, hs, by rw [hj.order, hso, Nat.min_eq_right (by omega)], hqp.trans hr⟩

/-- What is known of two stretches is known of the one that they become. -/
theorem Sound.keeps_join (h : w.Sound H kept start none (p :: q :: rest))
    (hp : p.frame.pending = []) (hlow : w.lowOf p.root ≠ w.orderOf p.root)
    (hj : Joins kept w w' p q) : w'.Keeps H kept none (join p q) rest := by
  have hkq := h.keeps.2.1
  refine ⟨h.frame_join hj, fun e he => h.ended_join hp hj he, fun e he => (h.cycles_join hlow he).1,
    fun e he => (h.cycles_join hlow he).2, ?_, h.low_join hj,
    fun s hs => hkq.above s (by simp_all [join])⟩
  show w'.lowOf q.root ≤ w'.orderOf q.root
  rw [hj.low, hj.order]
  exact Nat.le_trans (Nat.min_le_left _ _) hkq.low_le

/-- **A frame is left whose type reaches an earlier one of the stack**: its stretch joins the one
below. -/
theorem Sound.setAside (h : w.Sound H kept start none (p :: q :: rest))
    (hp : p.frame.pending = []) (hlow : w.lowOf p.root ≠ w.orderOf p.root) :
    ({ w with frames := w.frames.tail,
              partials := w.partials.insert p.root p.frame.collected }.yield p.frame.collected
        (w.lowOf p.root)).Sound H kept start none (join p q :: rest) := by
  have hframes : w.frames.tail = q.frame :: rest.map (·.frame) := by simp [h.frames_eq]
  rw [hframes, yield_eq rfl, collect_eq rfl]
  have hpart : ∀ t, ({ w with partials := w.partials.insert p.root p.frame.collected } :
      Walk).partialOf t = if t = p.root then p.frame.collected else w.partialOf t := by
    intro t
    simp only [partialOf, Std.ExtTreeMap.getElem?_insert, Std.compare_eq_iff_eq,
      eq_comm (a := p.root)]
    split <;> rfl
  refine ⟨rfl, ?_, h.mem_onStack, h.descending, h.entered_iff, h.apart, h.order_lt, ⟨?_, ?_⟩,
    ⟨h.finished.unset, h.finished.denotes, h.finished.above⟩, h.reached, ?_⟩
  · exact h.stack_eq.trans spread_join.symm
  · exact h.keeps_join hp hlow
      ⟨fun _ => rfl, lowOf_lower.trans (if_pos rfl), hpart, fun _ hk => hk⟩
  · have hrest : ∀ t ∈ spread rest, t ∈ spread (q :: rest) := fun t ht => by simp [ht]
    refine KeepsAll.mono (w := w) ⟨fun _ _ => rfl, ?_, ?_, fun _ hk => hk⟩ h.keeps.2.2
    · intro t ht
      have hne : t ≠ q.root := by
        intro he
        have hnodup : (spread (q :: rest)).Nodup := (List.nodup_append.mp h.nodup).2.1
        rw [spread_cons, List.nodup_append] at hnodup
        exact hnodup.2.2 q.root q.root_mem_members t ht he.symm
      exact lowOf_lower.trans (if_neg hne)
    · intro t ht
      have hne : t ≠ p.root := fun he => h.root_notMem (he ▸ hrest t ht)
      exact (hpart t).trans (if_neg hne)
  · have hlast := h.start_last
    cases rest with
    | nil => simpa [join, Stretch.root] using hlast
    | cons r rest => simpa using hlast

/-! ## 4. Closing a component -/

theorem Sound.takeWhile_stack (h : w.Sound H kept start awaited (p :: below)) :
    w.stack.takeWhile (· ≠ p.root) = p.ended := by
  rw [h.stack_eq, spread_append, takeWhile_ne_append (root_notMem_ended h.nodup)]

theorem Sound.component_eq (h : w.Sound H kept start awaited (p :: below)) :
    w.component p.root = p.members :=
  component_append (h.stack_eq.trans (spread_append ..)) (root_notMem_ended h.nodup)

theorem Sound.stack_closeComponent (set : TypeSet)
    (h : w.Sound H kept start awaited (p :: below)) :
    (w.closeComponent p.root set).stack = spread below :=
  stack_closeComponent_append (h.stack_eq.trans (spread_append ..)) (root_notMem_ended h.nodup)

/-- An edge out of a stretch whose root has its own number for a low point leads to a type whose set
is known, and is in what was collected, or to a type of the stretch. -/
theorem Sound.edge_of_complete {low : Nat} {e : TypeName}
    (h : w.Sound H kept start awaited (p :: below)) (hlow : low = w.orderOf p.root)
    (he : w.Holds H kept (spread (p :: below)) low [] set e) (hs : s ∈ H.above e) :
    w.Settles H kept set s ∨ s ∈ p.members := by
  rcases he.edges s hs with hs | hs | ⟨hs, hle⟩
  · exact absurd hs (by simp)
  · exact .inl hs
  · rcases List.mem_append.mp hs with hs | hs
    · exact .inr hs
    · have hlt := h.lt_root hs
      omega

/-- **The set of a component is complete.**  When the low point of a root is its own number, what
the types of its stretch have collected is what each of them inherits. -/
theorem Sound.componentSet_denotes (h : w.Sound H kept start none (p :: below))
    (hp : p.frame.pending = []) (hlow : w.lowOf p.root = w.orderOf p.root) {m : TypeName}
    (hm : m ∈ p.members) : H.Denotes (w.componentSet p.root p.frame.collected) m := by
  have hkeeps := h.keeps.1
  have hframe := hkeeps.frame
  rw [hp] at hframe
  have hmem : ∀ x, x ∈ w.componentSet p.root p.frame.collected ↔
      x ∈ p.frame.collected ∨ ∃ e ∈ p.ended, x ∈ w.partialOf e := by
    intro x
    rw [mem_componentSet, h.takeWhile_stack]
  -- Each type of the stretch reaches the root, and through it all others.
  have hup : H.Reaches m p.root := by
    rcases Stretch.mem_members.mp hm with hm | rfl
    · exact hkeeps.up m hm
    · exact .refl
  intro x
  constructor
  · intro hx
    refine .of_reaches hup ?_
    rcases (hmem x).mp hx with hx | ⟨e, he, hx⟩
    · exact hframe.sound x hx
    · exact .of_reaches (hkeeps.down e he) ((hkeeps.ended e he).sound x hx)
  · intro hx
    clear hup
    induction hx with
    | @given t x set ht hx =>
      rcases Stretch.mem_members.mp hm with hm | rfl
      · exact absurd ht (by simp [(hkeeps.ended t hm).unset])
      · exact absurd ht (by simp [hframe.unset])
    | @self t ht hc =>
      rcases Stretch.mem_members.mp hm with hm | rfl
      · exact (hmem t).mpr (.inr ⟨t, hm, (hkeeps.ended t hm).own hc⟩)
      · exact (hmem p.root).mpr (.inl (hframe.own hc))
    | @above t s x hts hx ih =>
      rcases Stretch.mem_members.mp hm with hm | rfl
      · rcases h.edge_of_complete hlow (hkeeps.ended t hm) hts.2 with hs | hs
        · exact (hmem x).mpr (.inr ⟨t, hm, hs.2 x hx⟩)
        · exact ih hs
      · rcases h.edge_of_complete hlow hframe hts.2 with hs | hs
        · exact (hmem x).mpr (.inl (hs.2 x hx))
        · exact ih hs

/-- Types with a known set are, after a component was closed, also its types. -/
theorem Sound.mem_finished_close (h : w.Sound H kept start awaited (p :: below)) :
    t ∈ (w.closeComponent p.root set).finished ↔ t ∈ p.members ∨ t ∈ w.finished := by
  rw [mem_finished_closeComponent, h.component_eq]

/-- On the stack remain, after a component was closed, the types below it. -/
theorem Sound.mem_onStack_close (h : w.Sound H kept start awaited (p :: below)) (set : TypeSet) :
    t ∈ (w.closeComponent p.root set).onStack ↔ t ∈ spread below := by
  rw [mem_onStack_closeComponent, h.component_eq, h.mem_onStack, h.stack_eq, spread_cons,
    List.mem_append]
  constructor
  · rintro ⟨ht | ht, hn⟩
    · exact absurd ht hn
    · exact ht
  · exact fun ht => ⟨.inr ht, h.notMem_members ht⟩

/-- What the types of a complete stretch list is known, or among them. -/
theorem Sound.above_of_complete (h : w.Sound H kept start none (p :: below))
    (hp : p.frame.pending = []) (hlow : w.lowOf p.root = w.orderOf p.root) (ht : t ∈ p.members)
    (hs : s ∈ H.above t) : (s ∈ w.finished ∨ kept s) ∨ s ∈ p.members := by
  have hkeeps := h.keeps.1
  have hframe := hkeeps.frame
  rw [hp] at hframe
  rcases Stretch.mem_members.mp ht with ht | rfl
  · exact (h.edge_of_complete hlow (hkeeps.ended t ht) hs).imp_left (·.1)
  · exact (h.edge_of_complete hlow hframe hs).imp_left (·.1)

/-- **What is known of types with a known set** is known of the types of a component as well, when
it is closed with the set that each of them inherits. -/
theorem Sound.finished_close (h : w.Sound H kept start none (p :: below))
    (hp : p.frame.pending = []) (hlow : w.lowOf p.root = w.orderOf p.root)
    (hset : ∀ m ∈ p.members, H.Denotes set m) :
    (w.closeComponent p.root set).Finished H kept := by
  have hkeeps := h.keeps.1
  refine ⟨?_, ?_, ?_⟩
  · intro t ht
    rcases h.mem_finished_close.mp ht with ht | ht
    · rcases Stretch.mem_members.mp ht with ht | rfl
      · exact (hkeeps.ended t ht).unset
      · exact hkeeps.frame.unset
    · exact h.finished.unset t ht
  · intro t set' ht
    rw [finished_closeComponent, h.component_eq] at ht
    split at ht
    · next hm =>
      cases ht
      exact hset t hm
    · exact h.finished.denotes t set' ht
  · intro t ht s hs
    rw [h.mem_finished_close]
    rcases h.mem_finished_close.mp ht with ht | ht
    · rcases h.above_of_complete hp hlow ht hs with (hs | hs) | hs
      · exact .inl (.inr hs)
      · exact .inr hs
      · exact .inl (.inl hs)
    · exact (h.finished.above t ht s hs).imp_left .inr

/-- **A component is closed**: its types leave the stack, and the frame below awaits its root. -/
theorem Sound.closeComponent (h : w.Sound H kept start none (p :: below))
    (hp : p.frame.pending = []) (hlow : w.lowOf p.root = w.orderOf p.root)
    (hset : ∀ m ∈ p.members, H.Denotes set m) :
    (({ w with frames := w.frames.tail } : Walk).closeComponent p.root set).Sound H kept start
      (some p.root) below := by
  have hstack : (({ w with frames := w.frames.tail } : Walk).closeComponent p.root set).stack =
      spread below := h.stack_closeComponent set
  have hmem : ∀ t, t ∈ (({ w with frames := w.frames.tail } : Walk).closeComponent p.root
      set).finished ↔ t ∈ p.members ∨ t ∈ w.finished := fun _ => h.mem_finished_close
  have hsplit : ∀ t, t ∈ w.stack ↔ t ∈ p.members ∨ t ∈ spread below := by
    intro t
    rw [h.stack_eq, spread_cons, List.mem_append]
  have hfinished := h.finished_close hp hlow hset
  refine ⟨?_, hstack, ?_, ?_, ?_, ?_, h.order_lt, ?_,
    ⟨hfinished.unset, hfinished.denotes, hfinished.above⟩, h.reached, ?_⟩
  · show w.frames.tail = below.map (·.frame)
    rw [h.frames_eq]
    rfl
  · intro t
    rw [hstack]
    exact h.mem_onStack_close set
  · have hdesc := h.descending
    rw [h.stack_eq] at hdesc
    rw [hstack]
    exact (List.pairwise_append.mp hdesc).2.1
  · intro t
    rw [hstack, hmem]
    refine (h.entered_iff t).trans ?_
    rw [hsplit, or_assoc, or_left_comm]
  · intro t ht
    rw [hstack] at ht
    rw [hmem, not_or]
    exact ⟨h.notMem_members ht, h.apart t ((hsplit t).mpr (.inr ht))⟩
  · refine KeepsAll.mono (w := w) ⟨fun _ _ => rfl, fun _ _ => rfl, ?_, ?_⟩ h.keeps.2
    · intro t ht
      have hcomponent : t ∉ w.component p.root := h.component_eq ▸ h.notMem_members ht
      exact partialOf_closeComponent hcomponent
    · intro t ht
      exact ht.imp_left fun ht => (hmem t).mpr (.inr ht)
  · have hlast := h.start_last
    cases below with
    | nil => simp
    | cons q rest => simpa using hlast

/-- **The frame below is handed the set of a component**, along with a low point that cannot be
below its own. -/
theorem Sound.yield (h : w.Sound H kept start (some s) (p :: below))
    (hknown : s ∈ w.finished) (hset : H.Denotes set s) {low : Nat}
    (hlow : w.lowOf p.root ≤ low) :
    (w.yield set low).Sound H kept start none
      (p.update p.frame.pending (p.frame.collected ∪ set) :: below) := by
  have hframes : w.frames = p.frame :: below.map (·.frame) := h.frames_eq
  have hc := h.collect (.inl hknown) hset
  have hof : ∀ t, ((w.collect set).lower p.frame.type low).lowOf t = (w.collect set).lowOf t := by
    intro t
    rw [lowOf_lower]
    split
    · next he =>
      subst he
      rw [collect_eq hframes]
      exact Nat.min_eq_left hlow
    · rfl
  rw [yield_eq hframes]
  refine hc.update _ _ ?_ (fun t _ => hof t) ?_
  · rw [collect_eq hframes]; rfl
  · exact Keeps.mono (w := w.collect set)
      ⟨fun _ _ => rfl, fun t _ => hof t, fun _ _ => rfl, fun _ hk => hk⟩ hc.keeps.1

end Ancestry.Closure.Walk
