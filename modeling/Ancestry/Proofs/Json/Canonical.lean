import Mathlib
import Ancestry.Proofs.Json.Reordered

/-!
# The canonical form

Of every value there is a canonical form, whatever its maps have for keys: several keys of a map may
become the same text, and some may be no texts at all.  A value is canonical (`IsCanonical`) if its
maps have texts for keys, in ascending order, as far as they are reached through maps and lists.
The canonical form is canonical (`isCanonical_canonical`), and a canonical value is its own
canonical form (`IsCanonical.canonical_eq`).  Hence nothing is left to do a second time, and by
`canonical_eq_iff` the canonical forms of documents tell apart all that differs in more than the
order of keys.
-/

namespace Ancestry.Json

/-- A value that another one has in it: an item of a list, or what stands under a key of a map. -/
inductive HasPart : Value → Value → Prop
  | item {xs : List Value} {x : Value} (hx : x ∈ xs) : HasPart (.list xs) x
  | under {es : List (Value × Value)} {e : Value × Value} (he : e ∈ es) : HasPart (.map es) e.2

/-- Every map that is reached through maps and lists has texts for keys, in ascending order. -/
inductive IsCanonical : Value → Prop
  | other {v : Value} (hlist : ∀ xs, v ≠ .list xs) (hmap : ∀ es, v ≠ .map es) : IsCanonical v
  | list {xs : List Value} (hxs : ∀ x ∈ xs, IsCanonical x) : IsCanonical (.list xs)
  | map {es : List (String × Value)} (hkeys : Ascending (es.map (·.1)))
    (hes : ∀ e ∈ es, IsCanonical e.2) : IsCanonical (.map (textEntries es))

variable {v w x : Value} {es : List (String × Value)} {e : String × Value}

/-! ## 1. What is sorted -/

/-- Nothing but the entries that are put in comes out of a map. -/
theorem mem_of_mem_foldl_insert (m : Std.ExtTreeMap String Value compare)
    (h : e ∈ (es.foldl (fun m e => m.insert e.1 e.2) m).toList) : e ∈ es ∨ e ∈ m.toList := by
  induction es generalizing m with
  | nil => exact .inr h
  | cons first es ih =>
    rcases ih _ h with hmem | hmem
    · exact .inl (List.mem_cons_of_mem _ hmem)
    · rw [mem_toList_iff (k := e.1) (v := e.2), Std.ExtTreeMap.getElem?_insert] at hmem
      by_cases hk : compare first.1 e.1 = .eq
      · rw [if_pos hk, Option.some.injEq] at hmem
        have he := Prod.ext (Std.compare_eq_iff_eq.mp hk).symm hmem.symm
        exact .inl (List.mem_cons.mpr (.inl he))
      · rw [if_neg hk] at hmem
        exact .inr (mem_toList_iff.mpr hmem)

/-- Sorting adds no entry, also where several entries have the same key. -/
theorem mem_of_mem_sortEntries (h : e ∈ sortEntries es) : e ∈ es := by
  rcases mem_of_mem_foldl_insert ∅ h with hmem | hmem
  · exact hmem
  · exact absurd (mem_toList_iff (k := e.1) (v := e.2) |>.mp hmem) (by simp)

theorem sortEntries_of_ascending (h : Ascending (es.map (·.1))) : sortEntries es = es :=
  sortEntries_eq h.nodup h fun _ => Iff.rfl

/-! ## 2. The canonical form is canonical -/

/-- The values of the entries from which a canonical map is made are canonical forms. -/
theorem exists_canonical_of_mem {es : List (Value × Value)} (h : e ∈ canonicalEntries es) :
    ∃ e' ∈ es, e.2 = canonical e'.2 := by
  induction es with
  | nil => exact absurd h List.not_mem_nil
  | cons first es ih =>
    rcases List.mem_cons.mp h with rfl | h
    · exact ⟨first, List.mem_cons_self, rfl⟩
    · obtain ⟨e', he', heq⟩ := ih h
      exact ⟨e', List.mem_cons_of_mem _ he', heq⟩

/-- **The canonical form of a value is canonical.** -/
theorem isCanonical_canonical : ∀ v : Value, IsCanonical (canonical v)
  | .list xs => by
    rw [canonical, canonicalItems_eq]
    refine .list fun x hx => ?_
    obtain ⟨y, hy, rfl⟩ := List.mem_map.mp hx
    exact isCanonical_canonical y
  | .map es => by
    rw [canonical]
    refine .map (ascending_sortEntries _) fun e he => ?_
    obtain ⟨e', he', heq⟩ := exists_canonical_of_mem (mem_of_mem_sortEntries he)
    rw [heq]
    exact isCanonical_canonical e'.2
  | .null | .bool _ | .int _ | .float _ | .text _ | .branded _ | .bytes _ | .moment _ | .tuple _
  | .set _ => .other (by simp [canonical]) (by simp [canonical])
termination_by v => sizeOf v
decreasing_by
  · have := List.sizeOf_lt_of_mem hy
    simp only [Value.list.sizeOf_spec]
    omega
  · have := List.sizeOf_lt_of_mem he'
    obtain ⟨key, value⟩ := e'
    simp only [Value.map.sizeOf_spec, Prod.mk.sizeOf_spec] at this ⊢
    omega

/-- **A canonical value is its own canonical form.** -/
theorem IsCanonical.canonical_eq (h : IsCanonical v) : canonical v = v := by
  induction h with
  | @other v hlist hmap =>
    cases v with
    | list xs => exact absurd rfl (hlist xs)
    | map es => exact absurd rfl (hmap es)
    | _ => rfl
  | @list xs _ ih =>
    rw [canonical, canonicalItems_eq]
    exact congrArg Value.list ((List.map_congr_left ih).trans (List.map_id xs))
  | @map es hkeys _ ih =>
    have hsame : es.map (fun e => (e.1, Json.canonical e.2)) = es := by
      refine (List.map_congr_left fun e he => ?_).trans (List.map_id es)
      rw [ih e he, id]
    rw [canonical_map, hsame, sortEntries_of_ascending hkeys]

/-- The parts of a canonical value are canonical. -/
theorem IsCanonical.part (h : IsCanonical v) (hpart : HasPart v w) : IsCanonical w := by
  cases h with
  | other hlist hmap =>
    cases hpart with
    | item => exact absurd rfl (hlist _)
    | under => exact absurd rfl (hmap _)
  | list hxs =>
    cases hpart with
    | item hx => exact hxs _ hx
  | map _ hes =>
    cases hpart with
    | under he =>
      obtain ⟨e, hmem, rfl⟩ := List.mem_map.mp he
      exact hes e hmem

theorem IsCanonical.reached (h : IsCanonical v) (hreached : Relation.ReflTransGen HasPart v w) :
    IsCanonical w := by
  induction hreached with
  | refl => exact h
  | tail _ hpart ih => exact ih.part hpart

theorem IsCanonical.entries {es : List (Value × Value)} (h : IsCanonical (.map es)) :
    ∃ named : List (String × Value), es = textEntries named ∧ Ascending (named.map (·.1)) := by
  cases h with
  | other _ hmap => exact absurd rfl (hmap es)
  | map hkeys _ => exact ⟨_, rfl, hkeys⟩

/-- **The canonical form is a normal form.**  Two values of documents have the same one exactly if
they are the same up to the order of keys at any depth.  The canonical form of any value, whatever
its keys are, is its own canonical form, and every map that is reached in it through maps and lists
has texts for keys, in strictly ascending order. -/
theorem canonical_normal {v v' : Value} (htree : Tree IsScalar v) (htree' : Tree IsScalar v')
    (w : Value) :
    (canonical v = canonical v' ↔ Reordered v v') ∧
      canonical (canonical w) = canonical w ∧
      ∀ es, Relation.ReflTransGen HasPart (canonical w) (.map es) →
        ∃ named : List (String × Value), es = textEntries named ∧ Ascending (named.map (·.1)) := by
  have hcanonical := isCanonical_canonical w
  refine ⟨canonical_eq_iff htree htree', hcanonical.canonical_eq, fun es hreached => ?_⟩
  exact (hcanonical.reached hreached).entries

/-- Two documents with keys in another order, on the outside and within a list; and a map with four
keys of which two become one text and the other two another one, where the later of both counts. -/
theorem canonical_normal_collision :
    let inner : Value := .map [(.text "y", .int 1), (.text "x", .list [])]
    let inner' : Value := .map [(.text "x", .list []), (.text "y", .int 1)]
    let v : Value := .map [(.text "b", .list [inner, .null]), (.text "a", .bool true)]
    let v' : Value := .map [(.text "a", .bool true), (.text "b", .list [inner', .null])]
    let w : Value := .map [(.text "True", .null), (.int 7, inner), (.bool true, .list [inner]),
      (.text "7", .tuple [inner])]
    let w' : Value := .map [(.text "7", .tuple [inner]), (.text "True", .list [inner'])]
    (Tree IsScalar v ∧ Tree IsScalar v') ∧ Reordered v v' ∧
      canonical w = w' ∧ canonical w' = w' ∧
      ∀ es, Relation.ReflTransGen HasPart w' (.map es) →
        ∃ named : List (String × Value), es = textEntries named ∧ Ascending (named.map (·.1)) := by
  intro inner inner' v v' w w'
  have htree : Tree IsScalar v :=
    tree_of_read (s := "\x7b\"b\": [\x7b\"y\": 1, \"x\": []\x7d, null], \"a\": true\x7d") (by cbv)
  have htree' : Tree IsScalar v' :=
    tree_of_read (s := "\x7b\"a\": true, \"b\": [\x7b\"x\": [], \"y\": 1\x7d, null]\x7d") (by cbv)
  have hform : canonical w = w' := by cbv
  obtain ⟨hsame, hagain, hkeys⟩ := canonical_normal htree htree' w
  rw [hform] at hagain hkeys
  exact ⟨⟨htree, htree'⟩, hsame.mp (by cbv), hform, hagain, hkeys⟩

end Ancestry.Json
