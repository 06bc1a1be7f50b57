import Mathlib.Data.List.Induction
import Ancestry.Json.Canonical
import Ancestry.Json.Reader
import Ancestry.Proofs.Ascending
import Ancestry.Proofs.Text.Scanning

/-!
# The values of documents

A document holds a tree: objects and lists around values that have no parts.  Whatever is read from
a document is such a tree (`tree_of_read`), in which no object has a key twice although the text of
the document may repeat one.  The canonical value of a tree is a tree with the same leaves, whose
objects have the same entries in ascending order of their keys.
-/

namespace Ancestry.Json

/-- A tree over the values that are leaves.  The keys of an object are texts, and no key comes
twice. -/
inductive Tree (leaf : Value → Prop) : Value → Prop
  | leaf {v : Value} (h : leaf v) : Tree leaf v
  | list {xs : List Value} (hxs : ∀ x ∈ xs, Tree leaf x) : Tree leaf (.list xs)
  | map {es : List (String × Value)} (hkeys : (es.map (·.1)).Nodup)
    (hes : ∀ e ∈ es, Tree leaf e.2) : Tree leaf (.map (textEntries es))

/-- The values without parts that are read from documents. -/
def IsScalar : Value → Prop
  | .null => True
  | .bool _ => True
  | .int _ => True
  | .float _ => True
  | .text _ => True
  | _ => False

variable {leaf : Value → Prop} {es : List (String × Value)} {key : String} {v : Value}

/-! ## 1. Entries -/

theorem textEntries_cons (e : String × Value) (es : List (String × Value)) :
    textEntries (e :: es) = (.text e.1, e.2) :: textEntries es := rfl

/-- The entries of an object are determined by the object. -/
theorem textEntries_injective {es es' : List (String × Value)}
    (h : textEntries es = textEntries es') : es = es' := by
  refine List.map_injective_iff.mpr (fun e e' he => ?_) h
  obtain ⟨hkey, hvalue⟩ := Prod.mk.inj he
  exact Prod.ext (Value.text.inj hkey) hvalue

/-- An object that has been read has different keys, and so have the objects in it. -/
theorem tree_map {fields : List (Value × Value)} (h : Tree IsScalar (.map fields)) :
    ∃ es : List (String × Value), fields = textEntries es ∧ (es.map (·.1)).Nodup ∧
      ∀ e ∈ es, Tree IsScalar e.2 := by
  cases h with
  | leaf h => exact absurd h not_false
  | map hkeys hes => exact ⟨_, rfl, hkeys, hes⟩

/-- In an object with different keys the value of a key is that of its entry. -/
theorem find?_textEntries (h : (es.map (·.1)).Nodup) :
    Value.find? (textEntries es) key = some v ↔ (key, v) ∈ es := by
  induction es with
  | nil => simp [textEntries, Value.find?]
  | cons e es ih =>
    rw [List.map_cons, List.nodup_cons] at h
    obtain ⟨key', value⟩ := e
    rw [textEntries_cons, Value.find?, List.mem_cons]
    by_cases hk : key' = key
    · subst hk
      have hnone : (key', v) ∉ es := fun hmem => h.1 (List.mem_map_of_mem (f := (·.1)) hmem)
      simp [Value.text?, hnone, eq_comm]
    · simp [Value.text?, hk, Ne.symm hk, ih h.2]

theorem sameKey_text (key key' : String) :
    (Value.text key).sameKey (.text key') = true ↔ key = key' := by
  simp only [Value.sameKey, Value.text?, beq_iff_eq, Option.some.injEq]
  exact eq_comm

/-- A new key is put at the end. -/
theorem put_of_notMem (h : key ∉ es.map (·.1)) (v : Value) :
    Value.put (textEntries es) (.text key) v = textEntries (es ++ [(key, v)]) := by
  induction es with
  | nil => rfl
  | cons e es ih =>
    rw [List.map_cons, List.mem_cons, not_or] at h
    have hne : ¬ (Value.text e.1).sameKey (.text key) = true := by
      rw [sameKey_text]
      exact Ne.symm h.1
    rw [textEntries_cons, Value.put, if_neg hne, ih h.2]
    rfl

/-- A key that is there keeps its place. -/
theorem exists_put_of_mem (h : key ∈ es.map (·.1)) (v : Value) :
    ∃ es', Value.put (textEntries es) (.text key) v = textEntries es' ∧
      es'.map (·.1) = es.map (·.1) ∧ ∀ e ∈ es', e ∈ es ∨ e = (key, v) := by
  induction es with
  | nil => exact absurd h List.not_mem_nil
  | cons e es ih =>
    by_cases hk : e.1 = key
    · refine ⟨(e.1, v) :: es, ?_, rfl, fun e' he' => ?_⟩
      · rw [textEntries_cons, Value.put, if_pos ((sameKey_text _ _).mpr hk)]
        rfl
      · rw [hk, List.mem_cons] at he'
        exact he'.symm.imp_left (List.mem_cons_of_mem e)
    · have hmem : key ∈ es.map (·.1) := (List.mem_cons.mp h).resolve_left (Ne.symm hk)
      obtain ⟨es', hput, hkeys, hes'⟩ := ih hmem
      refine ⟨e :: es', ?_, by rw [List.map_cons, hkeys, List.map_cons], fun e' he' => ?_⟩
      · rw [textEntries_cons, Value.put, if_neg (mt (sameKey_text _ _).mp hk), hput]
        rfl
      · rcases List.mem_cons.mp he' with rfl | he'
        · exact .inl List.mem_cons_self
        · exact (hes' e' he').imp_left (List.mem_cons_of_mem e)

theorem ofPairs_concat (pairs : List (String × Value)) (p : String × Value)
    (h : Value.ofPairs (textEntries pairs) = .map (textEntries es)) :
    Value.ofPairs (textEntries (pairs ++ [p])) =
      .map (Value.put (textEntries es) (.text p.1) p.2) := by
  rw [textEntries, List.map_append, ← textEntries, Value.ofPairs, List.foldl_append]
  exact congrArg (fun es => Value.map (Value.put es (.text p.1) p.2)) (Value.map.inj h)

/-- Pairs make an object with different keys, each of whose entries is one of the pairs. -/
theorem exists_ofPairs (pairs : List (String × Value)) :
    ∃ es, Value.ofPairs (textEntries pairs) = .map (textEntries es) ∧ (es.map (·.1)).Nodup ∧
      ∀ e ∈ es, e ∈ pairs := by
  induction pairs using List.reverseRecOn with
  | nil => exact ⟨[], rfl, List.nodup_nil, fun e he => he⟩
  | append_singleton pairs p ih =>
    obtain ⟨es, hes, hnodup, hmem⟩ := ih
    rw [ofPairs_concat pairs p hes]
    by_cases hk : p.1 ∈ es.map (·.1)
    · obtain ⟨es', hput, hkeys, hes'⟩ := exists_put_of_mem hk p.2
      refine ⟨es', congrArg Value.map hput, hkeys ▸ hnodup, fun e he => ?_⟩
      rcases hes' e he with he | rfl
      · exact List.mem_append_left _ (hmem e he)
      · exact List.mem_append_right _ (List.mem_singleton_self _)
    · refine ⟨es ++ [p], congrArg Value.map (put_of_notMem hk p.2),
        nodup_keys_concat.mpr ⟨hnodup, hk⟩, fun e he => ?_⟩
      exact (List.mem_append.mp he).elim (fun he => List.mem_append_left _ (hmem e he))
        (List.mem_append_right _)

/-- Pairs with different keys are the entries of the object that they make. -/
theorem ofPairs_of_nodup (h : (es.map (·.1)).Nodup) :
    Value.ofPairs (textEntries es) = .map (textEntries es) := by
  induction es using List.reverseRecOn with
  | nil => rfl
  | append_singleton es e ih =>
    obtain ⟨hnodup, hnew⟩ := nodup_keys_concat.mp h
    rw [ofPairs_concat es e (ih hnodup), put_of_notMem hnew]

/-! ## 2. What is read -/

theorem tree_empty : Tree leaf (.map []) :=
  have h : Tree leaf (.map (textEntries [])) := .map (by simp) (by simp)
  h

mutual
/-- The value of a document is a tree. -/
theorem Term.tree : ∀ {term : Term} {v : Value}, term.value? = some v → Tree IsScalar v
  | .null, _, rfl => .leaf trivial
  | .bool _, _, rfl => .leaf trivial
  | .int _, _, rfl => .leaf trivial
  | .float _, _, rfl => .leaf trivial
  | .text _, _, h => by
    obtain ⟨s, _, rfl⟩ := Option.map_eq_some_iff.mp h
    exact .leaf trivial
  | .list _, _, h => by
    obtain ⟨xs, hxs, rfl⟩ := Option.map_eq_some_iff.mp h
    exact .list (Term.tree_items hxs)
  | .map _, _, h => by
    obtain ⟨_, hpairs, rfl⟩ := Option.map_eq_some_iff.mp h
    obtain ⟨pairs, rfl, htrees⟩ := Term.tree_entries hpairs
    obtain ⟨es, hes, hnodup, hmem⟩ := exists_ofPairs pairs
    rw [hes]
    exact .map hnodup fun e he => htrees e (hmem e he)
/-- The values of the items of an array are trees. -/
theorem Term.tree_items : ∀ {terms : List Term} {xs : List Value},
    Term.items? terms = some xs → ∀ x ∈ xs, Tree IsScalar x
  | [], _, rfl => by simp
  | term :: terms, _, h => by
    simp only [Term.items?, Option.bind_eq_bind, Option.bind_eq_some_iff] at h
    obtain ⟨x, hx, xs, hxs, heq⟩ := h
    cases heq
    exact List.forall_mem_cons.mpr ⟨Term.tree hx, Term.tree_items hxs⟩
/-- The entries of an object have texts for keys and trees for values. -/
theorem Term.tree_entries : ∀ {terms : List (List Nat × Term)} {pairs : List (Value × Value)},
    Term.entries? terms = some pairs →
      ∃ es : List (String × Value), pairs = textEntries es ∧ ∀ e ∈ es, Tree IsScalar e.2
  | [], _, rfl => ⟨[], rfl, by simp⟩
  | (ns, term) :: terms, _, h => by
    simp only [Term.entries?, Option.bind_eq_bind, Option.bind_eq_some_iff] at h
    obtain ⟨key, _, x, hx, pairs, hpairs, heq⟩ := h
    obtain ⟨es, rfl, hes⟩ := Term.tree_entries hpairs
    cases heq
    exact ⟨(key, x) :: es, rfl, List.forall_mem_cons.mpr ⟨Term.tree hx, hes⟩⟩
end

/-- A value is read if a document is and has one. -/
theorem exists_of_read {s : String} (h : read s = .ok v) :
    ∃ term, readTerm s = .ok term ∧ term.value? = some v := by
  unfold read at h
  split at h
  · next term hterm =>
    split at h
    · next hvalue =>
      cases h
      exact ⟨term, hterm, hvalue⟩
    · cases h
  · cases h
  · cases h

/-- **What is read from a document is a tree.** -/
theorem tree_of_read {s : String} (h : read s = .ok v) : Tree IsScalar v := by
  obtain ⟨_, _, hvalue⟩ := exists_of_read h
  exact Term.tree hvalue

/-! ## 3. Canonical values -/

theorem canonicalEntries_textEntries (es : List (String × Value)) :
    canonicalEntries (textEntries es) = es.map fun e => (e.1, canonical e.2) := by
  induction es with
  | nil => rfl
  | cons e es ih => rw [textEntries_cons, canonicalEntries, ih]; rfl

theorem canonicalItems_eq (xs : List Value) : canonicalItems xs = xs.map canonical := by
  induction xs with
  | nil => rfl
  | cons x xs ih => rw [canonicalItems, ih]; rfl

theorem ascending_sortEntries (es : List (String × Value)) :
    Ascending ((sortEntries es).map (·.1)) := ascending_keys _

theorem mem_sortEntries (h : (es.map (·.1)).Nodup) (e : String × Value) :
    e ∈ sortEntries es ↔ e ∈ es := mem_toList_foldl_insert h e

/-- Entries that are the same and in ascending order are the sorted ones. -/
theorem sortEntries_eq {es' : List (String × Value)} (h : (es.map (·.1)).Nodup)
    (h' : Ascending (es'.map (·.1))) (hmem : ∀ e, e ∈ es' ↔ e ∈ es) : sortEntries es = es' :=
  eq_of_ascending (ascending_sortEntries es) h' fun e =>
    (mem_sortEntries h e).trans (hmem e).symm

theorem canonical_map (es : List (String × Value)) : canonical (.map (textEntries es)) =
    .map (textEntries (sortEntries (es.map fun e => (e.1, canonical e.2)))) := by
  rw [canonical, canonicalEntries_textEntries]

theorem keys_canonical (es : List (String × Value)) :
    (es.map fun e => (e.1, canonical e.2)).map (·.1) = es.map (·.1) := by
  rw [List.map_map]
  rfl

theorem canonical_scalar (v : Value) (h : IsScalar v) : canonical v = v := by
  cases v with
  | list _ => exact h.elim
  | map _ => exact h.elim
  | _ => rfl

/-- **The canonical value of a tree is a tree**, if leaves are their own canonical values. -/
theorem Tree.canonical (hleaf : ∀ v, leaf v → canonical v = v) (h : Tree leaf v) :
    Tree leaf (canonical v) := by
  induction h with
  | leaf h =>
    rw [hleaf _ h]
    exact .leaf h
  | @list xs _ ih =>
    rw [Json.canonical, canonicalItems_eq]
    refine .list fun x hx => ?_
    obtain ⟨y, hy, rfl⟩ := List.mem_map.mp hx
    exact ih y hy
  | @map es hkeys _ ih =>
    rw [canonical_map]
    refine .map (ascending_sortEntries _).nodup fun e he => ?_
    rw [mem_sortEntries ((keys_canonical es).symm ▸ hkeys)] at he
    obtain ⟨e', he', rfl⟩ := List.mem_map.mp he
    exact ih e' he'

end Ancestry.Json
