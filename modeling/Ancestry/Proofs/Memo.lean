import Ancestry.Memo
import Ancestry.Proofs.Hierarchy

/-!
# Memos that are right

A memo is right on a hierarchy if each set in it is the set of its type.  Storing the right set
keeps it so, and takes nothing out of it: a type has one set, so a type that is stored again is
stored with the set that it has.
-/

namespace Ancestry.Memo

/-- The memo has a set for the type. -/
def Has (memo : Memo) (t : TypeName) : Prop := ∃ set, memo.peek? t = some set

/-- All sets in the memo are right. -/
def Sound (memo : Memo) (H : Closure.Hierarchy) : Prop :=
  ∀ t set, memo.peek? t = some set → H.Denotes set t

/-- The second memo has all that the first one has. -/
def Grows (memo memo' : Memo) : Prop :=
  ∀ t set, memo.peek? t = some set → memo'.peek? t = some set

variable {memo memo' memo'' : Memo} {t : TypeName} {set : TypeSet} {H : Closure.Hierarchy}

theorem Grows.refl (memo : Memo) : memo.Grows memo := fun _ _ h => h

theorem Grows.trans (h : memo.Grows memo') (h' : memo'.Grows memo'') : memo.Grows memo'' :=
  fun t set ht => h' t set (h t set ht)

theorem Grows.has (h : memo.Grows memo') (t : TypeName) (ht : memo.Has t) : memo'.Has t := by
  obtain ⟨set, hset⟩ := ht
  exact ⟨set, h t set hset⟩

theorem Grows.peek?_eq_none (h : memo.Grows memo') (ht : memo'.peek? t = none) :
    memo.peek? t = none := by
  cases hset : memo.peek? t with
  | none => rfl
  | some set => exact absurd ((h t set hset).symm.trans ht) (by simp)

theorem grows_get : memo.Grows (memo.get t).2 := fun _ _ h => by simpa using h

theorem Sound.get (h : memo.Sound H) : (memo.get t).2.Sound H := fun u set hu =>
  h u set (by simpa using hu)

theorem Sound.store (h : memo.Sound H) (hset : H.Denotes set t) : (memo.store t set).Sound H := by
  intro u set' hu
  rw [peek?_store] at hu
  split at hu
  · next he =>
    cases he; cases hu
    exact hset
  · exact h u set' hu

/-- Storing the right set takes nothing out of a memo whose sets are right. -/
theorem Sound.grows_store (h : memo.Sound H) (hset : H.Denotes set t) :
    memo.Grows (memo.store t set) := by
  intro u set' hu
  rw [peek?_store]
  split
  · next he =>
    cases he
    rw [(h t set' hu).unique hset]
  · exact hu

/-- A lookup that finds a set counts as a hit. -/
theorem get_of_some (ht : memo.peek? t = some set) :
    (memo.get t).2 = { memo with hits := memo.hits + 1 } := by
  simp [get, ht]

/-- A lookup that finds nothing counts as a miss. -/
theorem get_of_none (ht : memo.peek? t = none) :
    (memo.get t).2 = { memo with misses := memo.misses + 1 } := by
  simp [get, ht]

theorem has_get (u : TypeName) : (memo.get u).2.Has t ↔ memo.Has t := by
  simp [Has]

theorem has_of_has_store {u : TypeName} (h : (memo.store u set).Has t) : memo.Has t ∨ t = u := by
  obtain ⟨set', hset'⟩ := h
  rw [peek?_store] at hset'
  split at hset'
  · next he => exact .inr he.symm
  · exact .inl ⟨set', hset'⟩

theorem has_store : (memo.store t set).Has t := ⟨set, by rw [peek?_store, if_pos rfl]⟩

theorem has_store_iff {u : TypeName} : (memo.store t set).Has u ↔ memo.Has u ∨ u = t := by
  refine ⟨has_of_has_store, ?_⟩
  rintro (⟨set', hset'⟩ | rfl)
  · by_cases hu : t = u
    · exact hu ▸ has_store
    · exact ⟨set', by rw [peek?_store, if_neg hu, hset']⟩
  · exact has_store

theorem has_iff_mem : memo.Has t ↔ t ∈ memo.entries := by
  rw [Has, ← Option.isSome_iff_exists, peek?, ← Std.ExtTreeMap.mem_iff_isSome_getElem?]

/-- The memo grows by the type that is stored, if it did not have it. -/
theorem size_store_of_not_has (ht : ¬ memo.Has t) : (memo.store t set).size = memo.size + 1 := by
  have hnot : t ∉ memo.entries := fun hmem => ht (has_iff_mem.mpr hmem)
  simp [size, store, Std.ExtTreeMap.size_insert, hnot]

theorem size_store_le : (memo.store t set).size ≤ memo.size + 1 :=
  Std.ExtTreeMap.size_insert_le

theorem sound_empty : Memo.empty.Sound H := fun t set h => by simp [empty, peek?] at h

/-- Two memos that are right have the same set for a type that both have or neither has. -/
theorem Sound.peek?_eq (h : memo.Sound H) (h' : memo'.Sound H) (hiff : memo'.Has t ↔ memo.Has t) :
    memo'.peek? t = memo.peek? t := by
  cases hset : memo.peek? t with
  | none =>
    cases hset' : memo'.peek? t with
    | none => rfl
    | some set' =>
      obtain ⟨set, hset''⟩ := hiff.mp ⟨set', hset'⟩
      exact absurd (hset.symm.trans hset'') (by simp)
  | some set =>
    obtain ⟨set', hset'⟩ := hiff.mpr ⟨set, hset⟩
    rw [hset', (h' t set' hset').unique (h t set hset)]

/-- Two memos that are right have the same entries if they have the same types. -/
theorem Sound.entries_eq (h : memo.Sound H) (h' : memo'.Sound H)
    (hhas : ∀ t, memo'.Has t ↔ memo.Has t) : memo'.entries = memo.entries :=
  Std.ExtTreeMap.ext_getElem? fun t => h.peek?_eq h' (hhas t)

/-- If their counters are the same as well, they are one memo. -/
theorem Sound.eq_of_counters (h : memo.Sound H) (h' : memo'.Sound H)
    (hhas : ∀ t, memo'.Has t ↔ memo.Has t) (hhits : memo'.hits = memo.hits)
    (hmisses : memo'.misses = memo.misses) (hstores : memo'.stores = memo.stores) :
    memo' = memo := by
  have hentries := h.entries_eq h' hhas
  obtain ⟨_, _, _, _⟩ := memo
  obtain ⟨_, _, _, _⟩ := memo'
  cases hentries
  cases hhits
  cases hmisses
  cases hstores
  rfl

end Ancestry.Memo
