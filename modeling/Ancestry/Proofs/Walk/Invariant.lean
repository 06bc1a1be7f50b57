import Ancestry.Proofs.Hierarchy
import Ancestry.Proofs.Walk.Fields

/-!
# What a walk has established

The stack of a walk falls into stretches, one for each frame: the type of the frame, and above it
the types that were entered from it and walked to the end, but whose component is still open.
`Walk.Sound` says of every stretch

* that its types lie on cycles through its root (`Keeps.down`, `Keeps.up`),
* that each of its types has collected nothing but what it inherits (`Holds.sound`), and
* that each supertype which was taken is accounted for (`Holds.edges`): either the set of the
  supertype is in what was collected, or the supertype is on the stack, in this stretch or below
  it, and no lower than the low point of the root.

The last point is what makes a component complete when the low point of its root is the number of
the root itself: then no edge leads out of the stretch to the stack below.  The only edge into a
stretch from below is the one by which its root was entered, so nothing below needs mending when
the stretch goes, except the set of the frame underneath.

Nothing here mentions the memo.  `kept` are the types that the memo is sure to have; it may grow in
the middle of a walk, through other queries, and what is established stays so (`KeepsAll.mono`).
-/

namespace Ancestry.Closure

/-! ## 1. Stretches of the stack -/

/-- A frame, and the types above it on the stack whose walk has ended. -/
structure Stretch where
  frame : Frame
  ended : List TypeName

namespace Stretch

/-- The type of the frame. -/
def root (p : Stretch) : TypeName := p.frame.type

/-- The types of a stretch, the one entered last in front. -/
def members (p : Stretch) : List TypeName := p.ended ++ [p.root]

/-- The stack that is made of the given stretches. -/
def spread (parts : List Stretch) : List TypeName := parts.flatMap members

/-- The stretch with other supertypes to be taken and another set in its frame. -/
def update (p : Stretch) (pending : List TypeName) (collected : TypeSet) : Stretch :=
  ⟨⟨p.root, pending, collected⟩, p.ended⟩

@[simp] theorem mem_members {p : Stretch} {t : TypeName} :
    t ∈ p.members ↔ t ∈ p.ended ∨ t = p.root := by
  simp [members]

@[simp] theorem spread_nil : spread [] = [] := rfl

@[simp] theorem spread_cons (p : Stretch) (parts : List Stretch) :
    spread (p :: parts) = p.members ++ spread parts := rfl

theorem root_mem_members (p : Stretch) : p.root ∈ p.members := by simp

/-- The uppermost root and what is above it stand on top of the stack. -/
theorem spread_append (p : Stretch) (parts : List Stretch) :
    spread (p :: parts) = p.ended ++ p.root :: spread parts := by
  rw [spread_cons, members, List.append_assoc]
  rfl

theorem root_notMem_ended {p : Stretch} {parts : List Stretch}
    (hnodup : (spread (p :: parts)).Nodup) : p.root ∉ p.ended := by
  rw [spread_append, List.nodup_append] at hnodup
  exact fun hroot => hnodup.2.2 p.root hroot p.root List.mem_cons_self rfl

end Stretch

open Stretch

namespace Walk

/-! ## 2. What is known of one type on the stack -/

/-- The set of `s` is known, and all of it is in `set`. -/
def Settles (H : Hierarchy) (kept : TypeName → Prop) (w : Walk) (set : TypeSet) (s : TypeName) :
    Prop :=
  (s ∈ w.finished ∨ kept s) ∧ ∀ x, H.Inherits s x → x ∈ set

/-- The type `e` has collected `set`, and only the supertypes `pending` are still to be taken.  The
others are settled, or among the types `stack` at or above the number `low`. -/
structure Holds (H : Hierarchy) (kept : TypeName → Prop) (w : Walk) (stack : List TypeName)
    (low : Nat) (pending : List TypeName) (set : TypeSet) (e : TypeName) : Prop where
  unset : H.given e = none
  own : H.isCore e = true → e ∈ set
  sound : ∀ x ∈ set, H.Inherits e x
  edges : ∀ s ∈ H.above e,
    s ∈ pending ∨ w.Settles H kept set s ∨ s ∈ stack ∧ low ≤ w.orderOf s

/-- `w'` says of the types `on` what `w` says, and the sets of no fewer types are known. -/
structure Extends (kept kept' : TypeName → Prop) (w w' : Walk) (on : List TypeName) : Prop where
  order : ∀ t ∈ on, w'.orderOf t = w.orderOf t
  low : ∀ t ∈ on, w'.lowOf t = w.lowOf t
  partials : ∀ t ∈ on, w'.partialOf t = w.partialOf t
  known : ∀ t, t ∈ w.finished ∨ kept t → t ∈ w'.finished ∨ kept' t

variable {H : Hierarchy} {kept kept' : TypeName → Prop} {w w' : Walk}

theorem Settles.mono {set set' : TypeSet} {s : TypeName} (h : w.Settles H kept set s)
    (hknown : s ∈ w.finished ∨ kept s → s ∈ w'.finished ∨ kept' s)
    (hset : ∀ x ∈ set, x ∈ set') : w'.Settles H kept' set' s :=
  ⟨hknown h.1, fun x hx => hset x (h.2 x hx)⟩

/-- What is known of a type stays known when it collects more, and when a supertype that was
pending or on the stack is accounted for in another way. -/
theorem Holds.mono {stack stack' : List TypeName} {low low' : Nat}
    {pending pending' : List TypeName} {set set' : TypeSet} {e : TypeName}
    (h : w.Holds H kept stack low pending set e)
    (hknown : ∀ s, s ∈ w.finished ∨ kept s → s ∈ w'.finished ∨ kept' s)
    (hset : ∀ x ∈ set, x ∈ set') (hsound : ∀ x ∈ set', H.Inherits e x)
    (hpending : ∀ s ∈ pending,
      s ∈ pending' ∨ w'.Settles H kept' set' s ∨ s ∈ stack' ∧ low' ≤ w'.orderOf s)
    (hstack : ∀ s ∈ stack, low ≤ w.orderOf s →
      s ∈ pending' ∨ w'.Settles H kept' set' s ∨ s ∈ stack' ∧ low' ≤ w'.orderOf s) :
    w'.Holds H kept' stack' low' pending' set' e where
  unset := h.unset
  own hc := hset e (h.own hc)
  sound := hsound
  edges s hs := by
    rcases h.edges s hs with hp | hsettled | ⟨hmem, hle⟩
    · exact hpending s hp
    · exact .inr (.inl (hsettled.mono (hknown s) hset))
    · exact hstack s hmem hle

/-! ## 3. What is known of the stack -/

/-- What is known of a stretch `p` with the stretches `below` under it.  `awaited` is a supertype
of the root that was taken but is not accounted for yet. -/
structure Keeps (H : Hierarchy) (kept : TypeName → Prop) (w : Walk) (awaited : Option TypeName)
    (p : Stretch) (below : List Stretch) : Prop where
  frame : w.Holds H kept (spread (p :: below)) (w.lowOf p.root)
    (awaited.toList ++ p.frame.pending) p.frame.collected p.root
  ended : ∀ e ∈ p.ended,
    w.Holds H kept (spread (p :: below)) (w.lowOf p.root) [] (w.partialOf e) e
  down : ∀ e ∈ p.ended, H.Reaches p.root e
  up : ∀ e ∈ p.ended, H.Reaches e p.root
  low_le : w.lowOf p.root ≤ w.orderOf p.root
  low_reached : ∃ s ∈ spread (p :: below), w.orderOf s = w.lowOf p.root ∧ H.Reaches p.root s
  above : ∀ s ∈ awaited.toList ++ p.frame.pending, s ∈ H.above p.root

/-- What is known of all stretches.  Each root but the uppermost awaits the root above it. -/
def KeepsAll (H : Hierarchy) (kept : TypeName → Prop) (w : Walk) :
    Option TypeName → List Stretch → Prop
  | _, [] => True
  | awaited, p :: below => w.Keeps H kept awaited p below ∧ w.KeepsAll H kept (some p.root) below

/-- What is known of a stretch stays known when its frame goes on, to the supertypes `pending` and
the set `collected`: each supertype that is no longer to be taken is settled, or on the stack and
no lower than the low point. -/
theorem Keeps.update {awaited awaited' : Option TypeName} {p : Stretch} {below : List Stretch}
    {pending : List TypeName} {collected : TypeSet} (h : w.Keeps H kept awaited p below)
    (hknown : ∀ s, s ∈ w.finished ∨ kept s → s ∈ w'.finished ∨ kept' s)
    (horder : ∀ t ∈ spread (p :: below), w'.orderOf t = w.orderOf t)
    (hpartials : ∀ t ∈ p.ended, w'.partialOf t = w.partialOf t)
    (hlow : w'.lowOf p.root ≤ w.lowOf p.root)
    (hreached : ∃ s ∈ spread (p :: below), w'.orderOf s = w'.lowOf p.root ∧ H.Reaches p.root s)
    (hset : ∀ x ∈ p.frame.collected, x ∈ collected)
    (hsound : ∀ x ∈ collected, H.Inherits p.root x)
    (hpending : ∀ s ∈ awaited.toList ++ p.frame.pending,
      s ∈ awaited'.toList ++ pending ∨ w'.Settles H kept' collected s ∨
        s ∈ spread (p :: below) ∧ w'.lowOf p.root ≤ w'.orderOf s)
    (habove : ∀ s ∈ awaited'.toList ++ pending, s ∈ awaited.toList ++ p.frame.pending) :
    w'.Keeps H kept' awaited' (p.update pending collected) below := by
  have hstack : ∀ s ∈ spread (p :: below), w.lowOf p.root ≤ w.orderOf s →
      s ∈ spread (p :: below) ∧ w'.lowOf p.root ≤ w'.orderOf s := by
    intro s hs hle
    rw [horder s hs]
    exact ⟨hs, Nat.le_trans hlow hle⟩
  refine ⟨?_, ?_, h.down, h.up, ?_, hreached, fun s hs => h.above s (habove s hs)⟩
  · exact h.frame.mono hknown hset hsound hpending (fun s hs hle => .inr (.inr (hstack s hs hle)))
  · intro e he
    have hpart : w'.partialOf e = w.partialOf e := hpartials e he
    rw [hpart]
    exact (h.ended e he).mono hknown (fun _ hx => hx) (h.ended e he).sound
      (fun s hs => .inl hs) (fun s hs hle => .inr (.inr (hstack s hs hle)))
  · have hroot : w'.orderOf p.root = w.orderOf p.root := horder p.root (by simp)
    exact Nat.le_trans hlow (Nat.le_trans h.low_le (Nat.le_of_eq hroot.symm))

theorem Keeps.mono {awaited : Option TypeName} {p : Stretch} {below : List Stretch}
    (hext : Extends kept kept' w w' (spread (p :: below)))
    (h : w.Keeps H kept awaited p below) : w'.Keeps H kept' awaited p below := by
  have hlow : w'.lowOf p.root = w.lowOf p.root := hext.low p.root (by simp)
  refine h.update hext.known hext.order (fun t ht => hext.partials t (by simp [ht]))
    (Nat.le_of_eq hlow) ?_ (fun _ hx => hx) h.frame.sound (fun s hs => .inl hs) (fun s hs => hs)
  obtain ⟨s, hs, hso, hr⟩ := h.low_reached
  exact ⟨s, hs, by rw [hlow, hext.order s hs, hso], hr⟩

theorem Extends.subset {on on' : List TypeName} (h : Extends kept kept' w w' on)
    (hsub : ∀ t ∈ on', t ∈ on) : Extends kept kept' w w' on' :=
  ⟨fun t ht => h.order t (hsub t ht), fun t ht => h.low t (hsub t ht),
    fun t ht => h.partials t (hsub t ht), h.known⟩

/-- **What is known of the stack stays known** as long as the walk says the same of the types on
it and the types with a known set do not become fewer. -/
theorem KeepsAll.mono : ∀ {awaited : Option TypeName} {parts : List Stretch},
    Extends kept kept' w w' (spread parts) → w.KeepsAll H kept awaited parts →
      w'.KeepsAll H kept' awaited parts
  | _, [], _, _ => trivial
  | _, p :: below, hext, h =>
    ⟨h.1.mono hext, h.2.mono (hext.subset fun t ht => by simp [ht])⟩

/-- The awaited supertype is one step up from the uppermost root. -/
theorem Keeps.leads {p : Stretch} {below : List Stretch} {s : TypeName}
    (h : w.Keeps H kept (some s) p below) : H.Leads p.root s :=
  ⟨h.frame.unset, h.above s (by simp)⟩

/-- A type on the stack reaches the uppermost root. -/
theorem KeepsAll.reaches_head : ∀ {awaited : Option TypeName} {p : Stretch} {below : List Stretch},
    w.KeepsAll H kept awaited (p :: below) → ∀ {t : TypeName}, t ∈ spread (p :: below) →
      H.Reaches t p.root
  | _, p, [], h, t, ht => by
    rcases List.mem_append.mp ht with ht | ht
    · rcases Stretch.mem_members.mp ht with ht | rfl
      · exact h.1.up t ht
      · exact .refl
    · exact absurd ht (by simp)
  | _, p, q :: rest, h, t, ht => by
    rcases List.mem_append.mp ht with ht | ht
    · rcases Stretch.mem_members.mp ht with ht | rfl
      · exact h.1.up t ht
      · exact .refl
    · exact (h.2.reaches_head ht).tail h.2.1.leads

/-! ## 4. What is known of a walk -/

/-- The types whose component is closed: their sets are right, and known are the sets of all their
supertypes. -/
structure Finished (H : Hierarchy) (kept : TypeName → Prop) (w : Walk) : Prop where
  unset : ∀ t ∈ w.finished, H.given t = none
  denotes : ∀ t set, w.finished[t]? = some set → H.Denotes set t
  above : ∀ t ∈ w.finished, ∀ s ∈ H.above t, s ∈ w.finished ∨ kept s

/-- A walk from `start` whose stack falls into the stretches `parts`.  The stack lists the types
that were entered and whose component is open, in descending order of their numbers. -/
structure Sound (H : Hierarchy) (kept : TypeName → Prop) (w : Walk) (start : TypeName)
    (awaited : Option TypeName) (parts : List Stretch) : Prop where
  frames_eq : w.frames = parts.map (·.frame)
  stack_eq : w.stack = spread parts
  mem_onStack : ∀ t, t ∈ w.onStack ↔ t ∈ w.stack
  descending : w.stack.Pairwise fun a b => w.orderOf b < w.orderOf a
  entered_iff : ∀ t, t ∈ w.order ↔ t ∈ w.stack ∨ t ∈ w.finished
  apart : ∀ t ∈ w.stack, t ∉ w.finished
  order_lt : ∀ t ∈ w.order, w.orderOf t < w.order.size
  keeps : w.KeepsAll H kept awaited parts
  finished : w.Finished H kept
  reached : ∀ t ∈ w.order, H.Reaches start t
  start_last : ∀ p ∈ parts.getLast?, p.root = start

variable {awaited : Option TypeName}

theorem Finished.mono (hkept : ∀ t, kept t → kept' t) (h : w.Finished H kept) :
    w.Finished H kept' :=
  ⟨h.unset, h.denotes, fun t ht s hs => (h.above t ht s hs).imp_right (hkept s)⟩

/-- **A walk stays sound while the memo grows.** -/
theorem Sound.mono {start : TypeName} {parts : List Stretch}
    (hkept : ∀ t, kept t → kept' t) (h : w.Sound H kept start awaited parts) :
    w.Sound H kept' start awaited parts :=
  { h with
    keeps := h.keeps.mono
      ⟨fun _ _ => rfl, fun _ _ => rfl, fun _ _ => rfl, fun t ht => ht.imp_right (hkept t)⟩
    finished := h.finished.mono hkept }

/-- The walk that has entered nothing is sound, whatever it is about to enter. -/
theorem sound_empty (start : TypeName) : Walk.empty.Sound H kept start awaited [] := by
  constructor <;> simp [empty, KeepsAll]
  constructor <;> simp

/-- With no stretch left, nothing is awaited. -/
theorem Sound.of_nil {start : TypeName} (h : w.Sound H kept start awaited []) :
    w.Sound H kept start none [] :=
  { h with keeps := trivial }

theorem Sound.nodup {start : TypeName} {parts : List Stretch}
    (h : w.Sound H kept start awaited parts) : (spread parts).Nodup := by
  rw [← h.stack_eq]
  refine h.descending.imp ?_
  intro a b hlt he
  exact absurd hlt (by simp [he])

end Walk
end Ancestry.Closure
