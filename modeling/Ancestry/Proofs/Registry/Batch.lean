import Mathlib.Data.List.Induction
import Mathlib.Data.List.Nodup
import Ancestry.Closure.Batch
import Ancestry.Proofs.Registry.Tally

/-!
# Batches of queries

A batch asks for the ancestors of each of its types once, and lists the answers in the order in
which the types are named first.  It is a history of queries like any other: every query is answered
as if it had been the only one (`answersIn_eq`), and what the batch leaves behind is what such a
history does.
-/

namespace Ancestry.Closure

/-! ## 1. Each type once -/

/-- The names that have been seen are those that were kept. -/
theorem mem_seen_iff (names : List TypeName) (t : TypeName) :
    let found := names.foldl (fun (seen, kept) t =>
      if t ∈ seen then (seen, kept) else (seen.insert t, t :: kept))
      ((∅ : TypeSet), ([] : List TypeName))
    t ∈ found.1 ↔ t ∈ found.2 := by
  induction names using List.reverseRecOn with
  | nil => simp
  | append_singleton names u ih =>
    simp only [List.foldl_append, List.foldl_cons, List.foldl_nil] at ih ⊢
    split
    · exact ih
    · rw [Std.ExtTreeSet.mem_insert, Std.compare_eq_iff_eq, List.mem_cons, ih, eq_comm]

theorem distinct_concat (names : List TypeName) (u : TypeName) :
    distinct (names ++ [u]) =
      if u ∈ distinct names then distinct names else distinct names ++ [u] := by
  have hseen := mem_seen_iff names u
  simp only [distinct, List.foldl_append, List.foldl_cons, List.foldl_nil, List.mem_reverse]
  simp only [hseen]
  split
  · rfl
  · rw [List.reverse_cons]

theorem mem_distinct {names : List TypeName} {t : TypeName} : t ∈ distinct names ↔ t ∈ names := by
  induction names using List.reverseRecOn with
  | nil => simp [distinct]
  | append_singleton names u ih =>
    rw [distinct_concat, List.mem_append, List.mem_singleton, ← ih]
    split
    · next hu => exact (or_iff_left_of_imp fun he => he ▸ hu).symm
    · rw [List.mem_append, List.mem_singleton]

theorem nodup_distinct (names : List TypeName) : (distinct names).Nodup := by
  induction names using List.reverseRecOn with
  | nil => exact List.nodup_nil
  | append_singleton names u ih =>
    rw [distinct_concat]
    split
    · exact ih
    · next hu =>
      rw [List.nodup_append_comm]
      exact List.nodup_cons.mpr ⟨hu, ih⟩

/-- The names stand in the order in which they come first. -/
theorem pairwise_distinct (names : List TypeName) :
    (distinct names).Pairwise fun t u => names.idxOf t < names.idxOf u := by
  induction names using List.reverseRecOn with
  | nil => exact List.Pairwise.nil
  | append_singleton names u ih =>
    have hold : (distinct names).Pairwise fun s t =>
        (names ++ [u]).idxOf s < (names ++ [u]).idxOf t := by
      refine ih.imp_of_mem fun {s t} hs ht hlt => ?_
      rwa [List.idxOf_append_of_mem (mem_distinct.mp hs),
        List.idxOf_append_of_mem (mem_distinct.mp ht)]
    rw [distinct_concat]
    split
    · exact hold
    · next hu =>
      refine List.pairwise_append.mpr ⟨hold, List.pairwise_singleton _ _, fun s hs t ht => ?_⟩
      cases List.mem_singleton.mp ht
      rw [List.idxOf_append_of_mem (mem_distinct.mp hs),
        List.idxOf_append_of_notMem fun hmem => hu (mem_distinct.mpr hmem)]
      exact Nat.lt_add_right _ (List.idxOf_lt_length_of_mem (mem_distinct.mp hs))

/-! ## 2. The answers -/

variable {layer : Layer} {core : Registry} {below : TypeName → TypeSet}

/-- **Every query of a batch is answered**, and rightly. -/
theorem answersIn_eq (hbelow : core.Answers below) {world : World core.State Watch}
    (h : world.Sound layer below core.Sound) (hpatient : world.Patient core.Patient)
    (order : List TypeName) :
    ∃ answers, layer.answersIn core.toCore order world =
        (.ok answers, layer.after core.toCore (order.map .ancestors) world) ∧
      ∀ t ∈ order, ∃ set, answers[t]? = some set ∧
        (Question.ancestors t).Answers layer below (fun _ => none) set := by
  induction order using List.reverseRecOn with
  | nil => exact ⟨∅, rfl, fun t ht => absurd ht List.not_mem_nil⟩
  | append_singleton order t ih =>
    obtain ⟨answers, heq, hanswers⟩ := ih
    obtain ⟨⟨set, hset, hright⟩, _⟩ := query_answered hbelow
      (after_sound hbelow (order.map .ancestors) h)
      (after_patient hbelow (order.map .ancestors) h hpatient) (.ancestors t)
    have hafter : layer.after core.toCore ((order ++ [t]).map .ancestors) world =
        (layer.query core.toCore (.ancestors t)
          (layer.after core.toCore (order.map .ancestors) world)).2 := by
      rw [List.map_append, Layer.after, List.foldl_append]
      rfl
    refine ⟨answers.insert t set, ?_, fun u hu => ?_⟩
    · rw [hafter, Layer.answersIn, List.foldl_append, ← Layer.answersIn, heq]
      simp only [List.foldl_cons, List.foldl_nil]
      rw [hset]
      rfl
    · rw [Std.ExtTreeMap.getElem?_insert]
      by_cases he : t = u
      · subst he
        exact ⟨set, by simp, hright⟩
      · have hmem : u ∈ order := by simpa [Ne.symm he] using hu
        obtain ⟨set', hset', hright'⟩ := hanswers u hmem
        exact ⟨set', by simp [he, hset'], hright'⟩

/-- **What a batch answers**, in whatever order its queries run: the distinct types in the order of
the list, each with its ancestors. -/
theorem queryAllIn_eq (hbelow : core.Answers below) {world : World core.State Watch}
    (h : world.Sound layer below core.Sound) (hpatient : world.Patient core.Patient)
    {order names : List TypeName} (hnames : ∀ t ∈ names, t ∈ order) :
    ∃ results, layer.queryAllIn core.toCore order names world =
        (.ok results, layer.after core.toCore (order.map .ancestors) world) ∧
      results.map (·.1) = distinct names ∧
      ∀ e ∈ results, ∃ set : TypeSet, e.2 = set.toList ∧
        (Question.ancestors e.1).Answers layer below (fun _ => none) set := by
  obtain ⟨answers, heq, hanswers⟩ := answersIn_eq hbelow h hpatient order
  refine ⟨(distinct names).map fun t => (t, ((answers[t]?).getD ∅).toList), ?_, ?_, ?_⟩
  · rw [Layer.queryAllIn, heq]
    rfl
  · rw [List.map_map]
    exact List.map_id _
  · intro e he
    obtain ⟨t, ht, rfl⟩ := List.mem_map.mp he
    obtain ⟨set, hset, hright⟩ := hanswers t (hnames t (mem_distinct.mp ht))
    exact ⟨set, by rw [hset]; rfl, hright⟩

end Ancestry.Closure
