import Mathlib.Data.Set.List
import Ancestry.Proofs.Document.Complaints
import Ancestry.Proofs.Document.Load

/-!
# Where a document differs from the shape

`Offends` says at which places the fields of a document differ from the shape, one rule for each way
to differ.  A document that differs nowhere gives names lists of names (`exists_entries`), and one
that gives names lists of names differs nowhere (`not_offends`).  The rules know only what a
document can hold.
-/

namespace Ancestry.Document

open Json (Tree IsScalar textEntries tree_map)

/-- A place at which the fields of a document differ from the shape: the field that counts is
missing or no object, the value of a name is no array, or an item of an array is no text. -/
inductive Offends (schema : Schema) (fields : List (Value × Value)) : List Place → Prop
  | missing (hfield : Value.find? fields schema.field = none) :
    Offends schema fields [.name schema.field]
  | notObject {v : Value} (hfield : Value.find? fields schema.field = some v)
    (hv : ∀ es, v ≠ .map es) : Offends schema fields [.name schema.field]
  | notArray {es : List (Value × Value)} {key : String} {v : Value}
    (hfield : Value.find? fields schema.field = some (.map es)) (hentry : (.text key, v) ∈ es)
    (hv : ∀ xs, v ≠ .list xs) : Offends schema fields [.name schema.field, .name key]
  | notText {es : List (Value × Value)} {key : String} {xs : List Value} {n : Nat} {x : Value}
    (hfield : Value.find? fields schema.field = some (.map es))
    (hentry : (.text key, .list xs) ∈ es) (hx : xs[n]? = some x) (htext : ∀ s, x ≠ .text s) :
    Offends schema fields [.name schema.field, .name key, .index n]

variable {p : List Place} {v : Value} {es : List (String × Value)} {schema : Schema}
  {fields : List (Value × Value)}

/-- What is to be found in an object that stands under the field. -/
theorem offends_iff (hfield : Value.find? fields schema.field = some (.map (textEntries es))) :
    Offends schema fields p ↔ ∃ e ∈ es,
      (∀ xs, e.2 ≠ .list xs) ∧ p = [.name schema.field, .name e.1] ∨
        ∃ (xs : List Value) (n : Nat) (x : Value), e.2 = .list xs ∧ xs[n]? = some x ∧
          (∀ s, x ≠ .text s) ∧ p = [.name schema.field, .name e.1, .index n] := by
  have hmem : ∀ {key v}, (.text key, v) ∈ textEntries es → (key, v) ∈ es := by
    intro key v hentry
    obtain ⟨⟨_, _⟩, he, heq⟩ := List.mem_map.mp hentry
    cases heq
    exact he
  constructor
  · intro h
    cases h with
    | missing hnone => cases hfield.symm.trans hnone
    | notObject hfield' hv =>
      cases hfield.symm.trans hfield'
      exact absurd rfl (hv _)
    | notArray hfield' hentry hv =>
      cases hfield.symm.trans hfield'
      exact ⟨_, hmem hentry, .inl ⟨hv, rfl⟩⟩
    | notText hfield' hentry hx htext =>
      cases hfield.symm.trans hfield'
      exact ⟨_, hmem hentry, .inr ⟨_, _, _, rfl, hx, htext, rfl⟩⟩
  · rintro ⟨⟨key, v⟩, he, hcases⟩
    have hentry : (.text key, v) ∈ textEntries es := List.mem_map.mpr ⟨_, he, rfl⟩
    rcases hcases with ⟨hv, rfl⟩ | ⟨xs, n, x, rfl, hx, htext, rfl⟩
    · exact .notArray hfield hentry hv
    · exact .notText hfield hentry hx htext

/-- Where no object stands under the field, that is all there is to complain about. -/
theorem offends_field_iff (h : ∀ es, Value.find? fields schema.field ≠ some (.map es)) :
    Offends schema fields p ↔ p = [.name schema.field] := by
  constructor
  · intro hoffends
    cases hoffends with
    | missing => rfl
    | notObject => rfl
    | notArray hfield => exact absurd hfield (h _)
    | notText hfield => exact absurd hfield (h _)
  · rintro rfl
    cases hfield : Value.find? fields schema.field with
    | none => exact .missing hfield
    | some v => exact .notObject hfield fun es hv => h es (hv ▸ hfield)

/-- A value of a document is an object or none. -/
theorem map_of_tree (h : Tree IsScalar v) :
    (∃ es : List (String × Value), v = .map (textEntries es) ∧ (es.map (·.1)).Nodup ∧
      ∀ e ∈ es, Tree IsScalar e.2) ∨ ∀ es, v ≠ .map es := by
  cases h with
  | leaf h =>
    refine .inr ?_
    rintro es rfl
    exact h
  | list _ => exact .inr (by simp)
  | map hkeys hes => exact .inl ⟨_, rfl, hkeys, hes⟩

/-- An entry that has nothing wrong with it gives a name a list of names. -/
theorem exists_entryValue {e : String × Value} (hlist : ∃ xs, e.2 = .list xs)
    (htext : ∀ (xs : List Value) (n : Nat) (x : Value), e.2 = .list xs → xs[n]? = some x →
      ∃ s, x = .text s) : e ∈ Set.range entryValue := by
  obtain ⟨xs, hxs⟩ := hlist
  have hnames : xs ∈ Set.range (List.map Value.text) := by
    rw [Set.range_list_map]
    intro x hx
    obtain ⟨n, hn⟩ := List.mem_iff_getElem?.mp hx
    obtain ⟨s, rfl⟩ := htext xs n x hxs hn
    exact ⟨s, rfl⟩
  obtain ⟨names, rfl⟩ := hnames
  exact ⟨(e.1, names), Prod.ext rfl hxs.symm⟩

/-- **A document that differs nowhere from the shape** gives names lists of names. -/
theorem exists_entries (htree : Tree IsScalar (.map fields))
    (h : ∀ p, ¬ Offends schema fields p) :
    ∃ entries : Entries, Value.find? fields schema.field = some entries.toValue := by
  obtain ⟨all, rfl, hkeys, htrees⟩ := tree_map htree
  by_cases hmap : ∃ es, Value.find? (textEntries all) schema.field = some (.map es)
  · obtain ⟨_, hfield⟩ := hmap
    obtain ⟨es, rfl, _⟩ := tree_map (htrees _ ((Json.find?_textEntries hkeys).mp hfield))
    have hentries : es ∈ Set.range (List.map entryValue) := by
      rw [Set.range_list_map]
      intro e he
      refine exists_entryValue ?_ fun xs n x hxs hx => ?_
      · refine Classical.byContradiction fun hlist => ?_
        exact h _ ((offends_iff hfield).mpr ⟨e, he, .inl ⟨fun xs hxs => hlist ⟨xs, hxs⟩, rfl⟩⟩)
      · refine Classical.byContradiction fun htext => ?_
        exact h _ ((offends_iff hfield).mpr ⟨e, he, .inr ⟨xs, n, x, hxs, hx,
          fun s hs => htext ⟨s, hs⟩, rfl⟩⟩)
    obtain ⟨entries, rfl⟩ := hentries
    exact ⟨entries, hfield⟩
  · exact absurd ((offends_field_iff fun es hes => hmap ⟨es, hes⟩).mpr rfl) (h _)

/-- Entries that are names with lists of names differ nowhere from the shape. -/
theorem not_offends {entries : Entries}
    (hfield : Value.find? fields schema.field = some entries.toValue) (p : List Place) :
    ¬ Offends schema fields p := by
  rw [offends_iff hfield]
  rintro ⟨_, he, hcases⟩
  obtain ⟨e, _, rfl⟩ := List.mem_map.mp he
  rcases hcases with ⟨hlist, _⟩ | ⟨xs, n, x, hxs, hx, htext, _⟩
  · exact hlist _ rfl
  · cases hxs
    obtain ⟨s, _, rfl⟩ := List.mem_map.mp (List.mem_of_getElem? hx)
    exact htext s rfl

end Ancestry.Document
