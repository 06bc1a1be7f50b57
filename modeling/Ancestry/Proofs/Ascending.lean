import Mathlib.Data.List.Nodup
import Ancestry.TypeTable

/-!
# Ascending order

Names are listed in ascending order of their characters, and entries in ascending order of their
names.  A listing of this kind is determined by what is in it (`eq_of_ascending`), and it has
nothing twice.
-/

namespace Ancestry

variable {β : Type}

/-- The names come in ascending order, none of them twice. -/
def Ascending (names : List String) : Prop := names.Pairwise (· < ·)

theorem lt_of_compare {a b : String} (h : compare a b = .lt) : a < b :=
  compareOfLessAndEq_eq_lt.mp h

theorem Ascending.nodup {names : List String} (h : Ascending names) : names.Nodup := by
  refine List.Pairwise.imp (fun {a b} hab => ?_) h
  rintro rfl
  exact String.lt_irrefl a hab

/-- Entries with different names are different. -/
theorem nodup_of_nodup_keys {es : List (String × β)} (h : (es.map (·.1)).Nodup) : es.Nodup := by
  refine (List.pairwise_map.mp h).imp fun {a b} hab he => hab ?_
  rw [he]

/-- One more entry has a name of its own. -/
theorem nodup_keys_concat {es : List (String × β)} {e : String × β} :
    ((es ++ [e]).map (·.1)).Nodup ↔ (es.map (·.1)).Nodup ∧ e.1 ∉ es.map (·.1) := by
  rw [List.map_append, List.map_singleton, List.nodup_append_comm, List.singleton_append,
    List.nodup_cons, and_comm]

/-- Entries in ascending order are determined by what they are. -/
theorem eq_of_ascending {es es' : List (String × β)} (h : Ascending (es.map (·.1)))
    (h' : Ascending (es'.map (·.1))) (hmem : ∀ e, e ∈ es ↔ e ∈ es') : es = es' := by
  have hperm : es.Perm es' :=
    (List.perm_ext_iff_of_nodup (nodup_of_nodup_keys h.nodup) (nodup_of_nodup_keys h'.nodup)).mpr
      hmem
  refine hperm.eq_of_pairwise (fun a b _ _ hab hba => ?_) (List.pairwise_map.mp h)
    (List.pairwise_map.mp h')
  exact absurd hba (String.lt_asymm hab)

theorem TypeSet.ascending_toList (a : TypeSet) : Ascending a.toList :=
  Std.ExtTreeSet.ordered_toList.imp lt_of_compare

/-! ## Maps made entry by entry -/

theorem mem_toList_iff {m : Std.ExtTreeMap String β compare} {k : String} {v : β} :
    (k, v) ∈ m.toList ↔ m[k]? = some v :=
  Std.ExtTreeMap.mem_toList_iff_getElem?_eq_some

theorem ascending_keys (m : Std.ExtTreeMap String β compare) : Ascending (m.toList.map (·.1)) :=
  List.pairwise_map.mpr (Std.ExtTreeMap.ordered_keys_toList.imp lt_of_compare)

/-- A map that is made of entries with different names has these entries. -/
theorem getElem?_foldl_insert {es : List (String × β)} (h : (es.map (·.1)).Nodup) {k : String}
    {v : β} (m : Std.ExtTreeMap String β compare) :
    (es.foldl (fun m e => m.insert e.1 e.2) m)[k]? = some v ↔
      (k, v) ∈ es ∨ k ∉ es.map (·.1) ∧ m[k]? = some v := by
  induction es generalizing m with
  | nil => simp
  | cons e es ih =>
    rw [List.map_cons, List.nodup_cons] at h
    rw [List.foldl_cons, ih h.2, List.map_cons, List.mem_cons, List.mem_cons]
    rw [Std.ExtTreeMap.getElem?_insert]
    obtain ⟨key, value⟩ := e
    by_cases hk : key = k
    · subst hk
      have hnone : (key, v) ∉ es := fun hmem => h.1 (List.mem_map_of_mem (f := (·.1)) hmem)
      simp [hnone, h.1, eq_comm]
    · have hcmp : compare key k ≠ .eq := fun he => hk (Std.compare_eq_iff_eq.mp he)
      simp [hcmp, Ne.symm hk]

/-- The sorted entries of a map that is made of entries with different names. -/
theorem mem_toList_foldl_insert {es : List (String × β)} (h : (es.map (·.1)).Nodup)
    (e : String × β) :
    e ∈ (es.foldl (fun m e => m.insert e.1 e.2)
      (∅ : Std.ExtTreeMap String β compare)).toList ↔ e ∈ es := by
  rw [mem_toList_iff (k := e.1) (v := e.2), getElem?_foldl_insert h]
  simp

end Ancestry
