import Ancestry.Proofs.Memo
import Ancestry.Proofs.Query.Sound

/-!
# One step of a query beside others

A query writes to a memo to which other queries write as well.  A step of it keeps the memo right
and takes nothing out of it, whatever the others have put there.  What the step writes was reached
from the type that is sought, and the supertypes of what it writes are in the memo too, or are owed
by the query, which forgets nothing of what it owes (`Query.Moves`).

Some types may have a set that is given.  An ascent does not go on from them.
-/

namespace Ancestry.Closure

variable {layer : Layer} {known : TypeName → TypeSet} {given : TypeName → Option TypeSet}
  {question : Question} {memo memo' : Memo} {q q' miss : Query} {found : TypeSet → Query}
  {next : TypeSet → Query × Option Occasion} {set : TypeSet} {t u s : TypeName}

/-! ## 1. What is owed -/

/-- Only what is about to be written is owed. -/
theorem mem_owed (layer : Layer) {q : Query} {s : TypeName} (hs : s ∈ q.owed) :
    ∃ t set next, layer.step q = .store t set next ∧ (s = t ∨ s ∈ next.owed) := by
  obtain ⟨phase, w⟩ := q
  cases phase with
  | close set members =>
    cases members with
    | nil => exact absurd hs (by simp [Query.owed])
    | cons t members => exact ⟨t, set, _, rfl, List.mem_cons.mp hs⟩
  | _ => exact absurd hs (by simp [Query.owed])

theorem notMem_owed {q : Query} {step : Step} (hq : layer.step q = step)
    (hne : ∀ t set next, step ≠ .store t set next) (s : TypeName) : s ∉ q.owed := by
  intro hs
  obtain ⟨t, set, next, he, _⟩ := mem_owed layer hs
  exact hne t set next (hq.symm.trans he)

/-! ## 2. The steps -/

/-- Where one element stands in the place of another, all others are the same. -/
theorem eq_or_mem_of_mem {α : Type} {front back : List α} {w a b : α}
    (h : w ∈ front ++ a :: back) : w = a ∨ w ∈ front ++ b :: back := by
  simp only [List.mem_append, List.mem_cons] at h ⊢
  rcases h with h | h | h
  · exact .inr (.inl h)
  · exact .inl h
  · exact .inr (.inr (.inr h))

/-- A query goes on as `q'` while the memo comes to be `memo'`. -/
structure Query.Moves (layer : Layer) (known : TypeName → TypeSet)
    (given : TypeName → Option TypeSet) (question : Question) (memo : Memo) (q : Query)
    (memo' : Memo) (q' : Query) : Prop where
  right : memo'.Sound (layer.hierarchy known given)
  grows : memo.Grows memo'
  good : q'.Good layer known given memo'.Has question
  owed : ∀ s ∈ q.owed, memo'.Has s ∨ s ∈ q'.owed
  new : ∀ t, memo'.Has t → memo.Has t ∨
    (∃ start, question.Seeks layer known start ∧ (layer.hierarchy known given).Reaches start t) ∧
      ∀ s ∈ (layer.hierarchy known).above t, memo'.Has s ∨ s ∈ q'.owed

section
variable (hmemo : memo.Sound (layer.hierarchy known given))
  (h : q.Good layer known given memo.Has question)
include hmemo h

theorem Query.Moves.refl : Query.Moves layer known given question memo q memo q :=
  ⟨hmemo, .refl _, h, fun _ hs => .inr hs, fun _ ht => .inl ht⟩

theorem moves_silent (hq : layer.step q = .silent q') :
    Query.Moves layer known given question memo q memo q' := by
  have hstep := step_good h
  rw [hq] at hstep
  exact ⟨hmemo, .refl _, hstep, fun s hs => absurd hs (notMem_owed hq (by simp) s),
    fun _ ht => .inl ht⟩

theorem moves_core (hq : layer.step q = .core u next) :
    Query.Moves layer known given question memo q memo (next (known u)).1 := by
  have hstep := step_good h
  rw [hq] at hstep
  exact ⟨hmemo, .refl _, hstep, fun s hs => absurd hs (notMem_owed hq (by simp) s),
    fun _ ht => .inl ht⟩

theorem moves_hit (hq : layer.step q = .lookup u found miss) (hset : memo.peek? u = some set) :
    Query.Moves layer known given question memo q (memo.get u).2 (found set) := by
  have hstep := step_good h
  rw [hq] at hstep
  have hfound := hstep.1 set ⟨set, hset⟩ (hmemo u set hset)
  exact ⟨hmemo.get, Memo.grows_get, hfound.mono Memo.grows_get.has,
    fun s hs => absurd hs (notMem_owed hq (by simp) s), fun v hv => .inl ((Memo.has_get u).mp hv)⟩

theorem moves_miss (hq : layer.step q = .lookup u found miss) (hgiven : given u = none) :
    Query.Moves layer known given question memo q (memo.get u).2 miss := by
  have hstep := step_good h
  rw [hq] at hstep
  exact ⟨hmemo.get, Memo.grows_get, (hstep.2 hgiven).mono Memo.grows_get.has,
    fun s hs => absurd hs (notMem_owed hq (by simp) s), fun v hv => .inl ((Memo.has_get u).mp hv)⟩

theorem moves_store (hq : layer.step q = .store u set q') :
    Query.Moves layer known given question memo q (memo.store u set) q' := by
  have hstep := step_good h
  rw [hq] at hstep
  obtain ⟨hset, hreached, habove, hgood⟩ := hstep
  have hgrows := hmemo.grows_store hset
  have hu : (memo.store u set).Has u := Memo.has_store
  -- The other types of the component are owed as before, and `u` is in the memo from now on.
  have hkept : ∀ s, memo.Has s ∨ s = u ∨ s ∈ q'.owed →
      (memo.store u set).Has s ∨ s ∈ q'.owed := by
    rintro s (hs | rfl | hs)
    · exact .inl (hgrows.has s hs)
    · exact .inl hu
    · exact .inr hs
  refine ⟨hmemo.store hset, hgrows, hgood _ hgrows.has hu, fun s hs => ?_, fun t ht => ?_⟩
  · obtain ⟨_, _, _, he, hs⟩ := mem_owed layer hs
    cases hq.symm.trans he
    exact hkept s (.inr hs)
  · rcases Memo.has_of_has_store ht with ht | rfl
    · exact .inl ht
    · exact .inr ⟨hreached, fun s hs => hkept s (habove s hs)⟩

end

end Ancestry.Closure
