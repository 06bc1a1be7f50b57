import Ancestry.Proofs.Document.Load

/-!
# Documents with empty names

A document of the shape is refused for one reason only, that a name in it is empty.  Which one is
found first does not depend on the form in which names are written: the entries of a document come
in ascending order, so an entry for the empty name is the first one (`toTable_of_key`), and an empty
member of any list is called the same (`toTable_of_member`).
-/

namespace Ancestry.Document

variable {entries : Entries} {dotted : Bool} {schema : Schema} {file : File}

/-! ## 1. The entries of a table -/

/-- Where some elements fail, and all of them in the same way, so does the whole list. -/
theorem mapM_eq_error {ε α : Type} {f : α → Except ε α} {e : ε} {xs : List α}
    (h : ∀ x ∈ xs, f x = .ok x ∨ f x = .error e) (hfails : ∃ x ∈ xs, f x = .error e) :
    xs.mapM f = .error e := by
  induction xs with
  | nil =>
    obtain ⟨x, hx, _⟩ := hfails
    exact absurd hx List.not_mem_nil
  | cons x xs ih =>
    obtain ⟨hx, hxs⟩ := List.forall_mem_cons.mp h
    rw [List.mapM_cons]
    rcases hx with hx | hx
    · obtain ⟨y, hy, hfails⟩ := hfails
      have hmem : y ∈ xs := by
        rcases List.mem_cons.mp hy with rfl | hmem
        · exact absurd (hx.symm.trans hfails) (by simp)
        · exact hmem
      rw [hx, ih hxs ⟨y, hmem, hfails⟩]
      rfl
    · rw [hx]
      rfl

theorem nameOfValue_empty (field : String) :
    TypeTable.nameOfValue field (.text "") = .error (.rule ("empty " ++ field) []) := rfl

theorem namedEntry_of_key {e : TypeName × TypeSet} (hkey : e.1 = "") :
    namedEntry schema e = .error (.rule "empty type_id" []) := by
  rw [namedEntry, hkey, nameOfValue_empty]
  rfl

theorem namedEntry_of_member {e : TypeName × TypeSet} (hkey : e.1 ≠ "") (hmember : "" ∈ e.2) :
    namedEntry schema e = .error (.rule ("empty " ++ schema.memberField) []) := by
  have hnames : e.2.toList.mapM (fun t => TypeTable.nameOfValue schema.memberField (.text t)) =
      .error (.rule ("empty " ++ schema.memberField) []) := by
    refine mapM_eq_error (fun s _ => ?_) ⟨"", Std.ExtTreeSet.mem_toList.mpr hmember, rfl⟩
    by_cases hs : s = ""
    · exact .inr (hs ▸ nameOfValue_empty _)
    · exact .inl (nameOfValue_text hs)
  rw [namedEntry, nameOfValue_text hkey, hnames]
  rfl

/-! ## 2. The table -/

theorem typeName_eq_empty {name : String} : typeName dotted name = "" ↔ name = "" := by
  constructor
  · exact fun h => Classical.byContradiction fun hne => typeName_ne_empty hne h
  · rintro rfl
    cases dotted <;> rfl

/-- The first entry of a document makes the first one of its table. -/
theorem head?_tableEntries (dotted : Bool) (e : String × List String) (entries : Entries) :
    ∃ set rest, tableEntries dotted (e :: entries) = (typeName dotted e.1, set) :: rest := by
  induction entries using List.reverseRecOn with
  | nil => exact ⟨_, [], rfl⟩
  | append_singleton entries e' ih =>
    obtain ⟨set, rest, heq⟩ := ih
    rw [← List.cons_append, tableEntries, List.foldl_append, ← tableEntries, heq]
    simp only [List.foldl_cons, List.foldl_nil, unite]
    split
    · exact ⟨_, _, rfl⟩
    · exact ⟨_, _, rfl⟩

/-- No name comes before the empty one. -/
theorem eq_empty_of_mem_keys {e : String × List String} (h : Ascending ((e :: entries).map (·.1)))
    (hmem : "" ∈ (e :: entries).map (·.1)) : e.1 = "" := by
  rcases List.mem_cons.mp hmem with hhead | hrest
  · exact hhead.symm
  · have hlt : e.1 < "" := (List.pairwise_cons.mp h).1 "" hrest
    exact absurd (String.lt_iff.mp hlt) (List.not_lt_nil _)

/-- **An entry for the empty name is refused first.** -/
theorem toTable_of_key (h : Ascending (entries.map (·.1))) (hkey : "" ∈ entries.map (·.1)) :
    toTable schema (tableEntries dotted entries) = .error (.rule "empty type_id" []) := by
  cases entries with
  | nil => exact absurd hkey List.not_mem_nil
  | cons e entries =>
    obtain ⟨set, rest, heq⟩ := head?_tableEntries dotted e entries
    have hempty : typeName dotted e.1 = "" := typeName_eq_empty.mpr (eq_empty_of_mem_keys h hkey)
    rw [toTable_eq, heq, List.mapM_cons, namedEntry_of_key hempty]
    rfl

/-- **Where no entry is for the empty name, an empty member is refused.** -/
theorem toTable_of_member (hkey : "" ∉ entries.map (·.1)) (hmember : ∃ e ∈ entries, "" ∈ e.2) :
    toTable schema (tableEntries dotted entries) =
      .error (.rule ("empty " ++ schema.memberField) []) := by
  have h := represents_tableEntries dotted entries
  have hkeys : ∀ e ∈ tableEntries dotted entries, e.1 ≠ "" := by
    intro e he hempty
    obtain ⟨e', he', ht⟩ := (h.mem_keys e.1).mp (List.mem_map_of_mem he)
    rw [hempty, typeName_eq_empty] at ht
    exact hkey (List.mem_map.mpr ⟨e', he', ht⟩)
  have hfails : ∃ e ∈ tableEntries dotted entries, "" ∈ e.2 := by
    obtain ⟨e, he, hempty⟩ := hmember
    obtain ⟨e', he', ht⟩ := List.mem_map.mp ((h.mem_keys (typeName dotted e.1)).mpr ⟨e, he, rfl⟩)
    refine ⟨e', he', (h.mem_set e'.1 e'.2 he' "").mpr ⟨e, he, ht.symm, "", hempty, ?_⟩⟩
    exact typeName_eq_empty.mpr rfl
  have hmapM : (tableEntries dotted entries).mapM (namedEntry schema) =
      .error (.rule ("empty " ++ schema.memberField) []) := by
    refine mapM_eq_error (fun e he => ?_) ?_
    · by_cases hempty : "" ∈ e.2
      · exact .inr (namedEntry_of_member (hkeys e he) hempty)
      · exact .inl (namedEntry_of_ne (hkeys e he) hempty)
    · obtain ⟨e, he, hempty⟩ := hfails
      exact ⟨e, he, namedEntry_of_member (hkeys e he) hempty⟩
  rw [toTable_eq, hmapM]
  rfl

end Ancestry.Document
