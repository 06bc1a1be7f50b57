import Ancestry.Proofs.Json.Tree

/-!
# Values that differ in the order of keys

Two documents may hold the same objects and write their entries in another order, on the outside or
deep within lists and other objects (`Reordered`).  Their values are different then, and a loader
that goes by the order of entries could tell them apart.  By the canonical value nobody can: it is
the same for such documents, and for no others (`canonical_eq_iff`).
-/

namespace Ancestry.Json

/-- The values are the same up to the order in which the entries of objects come, at any depth. -/
inductive Reordered : Value → Value → Prop
  | refl (v : Value) : Reordered v v
  | list {xs ys : List Value} (hlen : xs.length = ys.length)
    (hitems : ∀ (n : Nat) (x y : Value), xs[n]? = some x → ys[n]? = some y → Reordered x y) :
    Reordered (.list xs) (.list ys)
  | map {es es' : List (String × Value)} (hkeys : (es.map (·.1)).Perm (es'.map (·.1)))
    (hvalues : ∀ (key : String) (v v' : Value), (key, v) ∈ es → (key, v') ∈ es' → Reordered v v') :
    Reordered (.map (textEntries es)) (.map (textEntries es'))

variable {v v' : Value} {es es' : List (String × Value)} {xs ys : List Value}

/-! ## 1. Trees and their entries -/

theorem Tree.items (h : Tree IsScalar (.list xs)) : ∀ x ∈ xs, Tree IsScalar x := by
  cases h with
  | leaf h => exact h.elim
  | list hxs => exact hxs

theorem Tree.entries (h : Tree IsScalar (.map (textEntries es))) :
    (es.map (·.1)).Nodup ∧ ∀ e ∈ es, Tree IsScalar e.2 := by
  obtain ⟨es', heq, hkeys, hes⟩ := tree_map h
  obtain rfl := textEntries_injective heq
  exact ⟨hkeys, hes⟩

/-- A key of one object has a value in another one with the same keys. -/
theorem exists_value_of_perm {key : String} (hkeys : (es.map (·.1)).Perm (es'.map (·.1)))
    (h : (key, v) ∈ es) : ∃ v', (key, v') ∈ es' := by
  obtain ⟨⟨_, v'⟩, hmem, rfl⟩ := List.mem_map.mp (hkeys.mem_iff.mp (List.mem_map_of_mem h))
  exact ⟨v', hmem⟩

/-- The sorted entries of an object have the canonical values of its entries. -/
theorem mem_sorted_canonical (h : (es.map (·.1)).Nodup) (e : String × Value) :
    e ∈ sortEntries (es.map fun e => (e.1, canonical e.2)) ↔
      ∃ v, (e.1, v) ∈ es ∧ canonical v = e.2 := by
  rw [mem_sortEntries (by rwa [keys_canonical]), List.mem_map]
  constructor
  · rintro ⟨⟨key, v⟩, hmem, rfl⟩
    exact ⟨v, hmem, rfl⟩
  · rintro ⟨v, hmem, hv⟩
    exact ⟨(e.1, v), hmem, Prod.ext rfl hv⟩

/-! ## 2. The same up to the order, and the same canonical value -/

/-- Objects with the same canonical values under the same keys have the same sorted entries. -/
theorem sortEntries_canonical_eq (h : (es.map (·.1)).Nodup) (h' : (es'.map (·.1)).Nodup)
    (hkeys : (es.map (·.1)).Perm (es'.map (·.1)))
    (hvalues : ∀ (key : String) (v v' : Value), (key, v) ∈ es → (key, v') ∈ es' →
      canonical v = canonical v') :
    sortEntries (es.map fun e => (e.1, canonical e.2)) =
      sortEntries (es'.map fun e => (e.1, canonical e.2)) := by
  refine eq_of_ascending (ascending_sortEntries _) (ascending_sortEntries _) fun e => ?_
  rw [mem_sorted_canonical h, mem_sorted_canonical h']
  constructor
  · rintro ⟨v, hmem, hv⟩
    obtain ⟨v', hmem'⟩ := exists_value_of_perm hkeys hmem
    exact ⟨v', hmem', (hvalues _ v v' hmem hmem').symm.trans hv⟩
  · rintro ⟨v', hmem', hv'⟩
    obtain ⟨v, hmem⟩ := exists_value_of_perm hkeys.symm hmem'
    exact ⟨v, hmem, (hvalues _ v v' hmem hmem').trans hv'⟩

/-- **The order of keys is not in the canonical value.** -/
theorem Reordered.canonical_eq (h : Reordered v v') (htree : Tree IsScalar v)
    (htree' : Tree IsScalar v') : canonical v = canonical v' := by
  induction h with
  | refl => rfl
  | @list xs ys hlen _ ih =>
    rw [canonical, canonical, canonicalItems_eq, canonicalItems_eq]
    refine congrArg Value.list (List.ext_getElem (by simpa using hlen) fun n hn hn' => ?_)
    rw [List.getElem_map, List.getElem_map]
    rw [List.length_map] at hn hn'
    exact ih n _ _ (List.getElem?_eq_getElem hn) (List.getElem?_eq_getElem hn')
      (htree.items _ (List.getElem_mem hn)) (htree'.items _ (List.getElem_mem hn'))
  | @map es es' hkeys _ ih =>
    obtain ⟨hnodup, htrees⟩ := htree.entries
    obtain ⟨hnodup', htrees'⟩ := htree'.entries
    rw [canonical_map, canonical_map]
    refine congrArg (fun es => Value.map (textEntries es))
      (sortEntries_canonical_eq hnodup hnodup' hkeys fun key v v' hmem hmem' => ?_)
    exact ih key v v' hmem hmem' (htrees _ hmem) (htrees' _ hmem')

/-- Objects with the same sorted entries have the same keys. -/
theorem perm_keys_of_sorted_eq (h : (es.map (·.1)).Nodup) (h' : (es'.map (·.1)).Nodup)
    (heq : sortEntries (es.map fun e => (e.1, canonical e.2)) =
      sortEntries (es'.map fun e => (e.1, canonical e.2))) :
    (es.map (·.1)).Perm (es'.map (·.1)) := by
  have hkeys : ∀ {es : List (String × Value)}, (es.map (·.1)).Nodup → ∀ key,
      key ∈ es.map (·.1) ↔
        key ∈ (sortEntries (es.map fun e => (e.1, canonical e.2))).map (·.1) := by
    intro es h key
    simp [mem_sorted_canonical h]
  rw [List.perm_ext_iff_of_nodup h h']
  intro key
  rw [hkeys h, hkeys h', heq]

/-- **Nothing but the order of keys is lost in the canonical value.** -/
theorem reordered_of_canonical_eq (htree : Tree IsScalar v) (htree' : Tree IsScalar v')
    (heq : canonical v = canonical v') : Reordered v v' := by
  induction htree generalizing v' with
  | leaf hv =>
    rw [canonical_scalar _ hv] at heq
    subst heq
    cases htree' with
    | leaf hv' =>
      rw [canonical_scalar _ hv']
      exact .refl _
    | list _ => exact hv.elim
    | map _ _ =>
      rw [canonical_map] at hv
      exact hv.elim
  | @list xs _ ih =>
    rw [canonical, canonicalItems_eq] at heq
    cases htree' with
    | leaf hv' =>
      rw [canonical_scalar _ hv'] at heq
      subst heq
      exact hv'.elim
    | @list ys hys =>
      rw [canonical, canonicalItems_eq] at heq
      have hsame := Value.list.inj heq
      refine .list (by simpa using congrArg List.length hsame) fun n x y hx hy => ?_
      refine ih x (List.mem_of_getElem? hx) (hys y (List.mem_of_getElem? hy)) ?_
      simpa [hx, hy] using congrArg (·[n]?) hsame
    | map _ _ =>
      rw [canonical_map] at heq
      cases heq
  | @map es hkeys _ ih =>
    rw [canonical_map] at heq
    cases htree' with
    | leaf hv' =>
      rw [canonical_scalar _ hv'] at heq
      subst heq
      exact hv'.elim
    | list _ => cases heq
    | @map es' hkeys' hes' =>
      rw [canonical_map] at heq
      have hsame := textEntries_injective (Value.map.inj heq)
      refine .map (perm_keys_of_sorted_eq hkeys hkeys' hsame) fun key v v' hmem hmem' => ?_
      refine ih (key, v) hmem (hes' (key, v') hmem') ?_
      -- Both canonical values stand under the key among the same sorted entries.
      have hv := (mem_sorted_canonical hkeys (key, canonical v)).mpr ⟨v, hmem, rfl⟩
      have hv' := (mem_sorted_canonical hkeys' (key, canonical v')).mpr ⟨v', hmem', rfl⟩
      rw [← hsame] at hv'
      have hfind := (find?_textEntries (ascending_sortEntries _).nodup).mpr hv
      have hfind' := (find?_textEntries (ascending_sortEntries _).nodup).mpr hv'
      exact Option.some.inj (hfind.symm.trans hfind')

/-- **Two values of documents have the same canonical value exactly if they are the same up to the
order of keys.** -/
theorem canonical_eq_iff (htree : Tree IsScalar v) (htree' : Tree IsScalar v') :
    canonical v = canonical v' ↔ Reordered v v' :=
  ⟨reordered_of_canonical_eq htree htree', fun h => h.canonical_eq htree htree'⟩

end Ancestry.Json
