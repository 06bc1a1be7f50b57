import Mathlib
import Ancestry.Proofs.Document.Accepted
import Ancestry.Proofs.Json.Canonical
import Ancestry.Proofs.Json.ReadBack

/-!
# A file that has been written

Documents are written in canonical form, and what is read from a file is brought to canonical form.
Between the two nothing is lost: from a file with the written form of an object its canonical form
is read, down to the order of keys (`readObject_writeCanonical`), and since that is canonical
already, to write it once more gives the same file.  As in `Plain`, this is about values without
fractions and without integers that are too long to be read.
-/

namespace Ancestry.File

open Json (Plain IsPlain canonical canonical_scalar textEntries writeCanonical)

variable {fields : List (Value × Value)}

/-- What a plain value has for leaves is left alone by the canonical form. -/
theorem canonical_plain (v : Value) (h : IsPlain v) : canonical v = v := by
  refine canonical_scalar v ?_
  cases v with
  | null | bool | int | text => exact trivial
  | _ => exact absurd h not_false

/-- **What is written to a file is read from it**, in canonical form and with its keys in that
order, and to write what was read gives the same file again. -/
theorem readObject_writeCanonical (h : Plain (.map fields)) :
    ∃ text entries, writeCanonical (.map fields) = .ok text ∧
      readObject (.regular text.toUTF8) = .ok entries ∧
      .map entries = canonical (.map fields) ∧
      writeCanonical (.map entries) = .ok text := by
  obtain ⟨entries, hform⟩ : ∃ entries, canonical (.map fields) = .map entries := ⟨_, rfl⟩
  have hagain : canonical (.map entries) = .map entries :=
    hform ▸ (Json.isCanonical_canonical (.map fields)).canonical_eq
  have hplain : Plain (.map entries) := hform ▸ h.canonical canonical_plain
  obtain ⟨text, hwrite, hread⟩ := hplain.read_write
  have hread' : Json.read text = .ok (.map entries) := by
    simpa using hread [] Json.blank_nil
  refine ⟨text, entries, ?_, ?_, hform.symm, ?_⟩
  · rw [writeCanonical, hform, hwrite]
  · rw [Document.readObject_of_yields (Document.yields_of_read hread'), objectEntries, hagain]
  · rw [writeCanonical, hagain, hwrite]

/-- A text with characters of each kind of escape, a negative number and containers with nothing in
them, under keys that are not in order. -/
theorem readObject_writeCanonical_escapes :
    let items : List Value := [.int (-12), .map [], .list [], .null]
    let fields : List (Value × Value) := [(.text "b", .list items), (.text "a", .text "é\n\"😀")]
    let text := "\x7b\n  \"a\": \"\\u00e9\\n\\\"\\ud83d\\ude00\",\n" ++
      "  \"b\": [\n    -12,\n    \x7b\x7d,\n    [],\n    null\n  ]\n\x7d"
    Plain (.map fields) ∧ writeCanonical (.map fields) = .ok text ∧
      readObject (.regular text.toUTF8) = .ok fields.reverse ∧
      writeCanonical (.map fields.reverse) = .ok text := by
  intro items fields text
  have hitems : ∀ x ∈ items, Plain x := by
    simp only [items, List.forall_mem_cons]
    refine ⟨.leaf (by decide : (Nat.toDigits 10 12).length ≤ Text.maxDigits), ?_, ?_, .leaf trivial,
      by simp⟩
    · exact Json.tree_empty
    · exact .list (by simp)
  have hplain : Plain (.map fields) := by
    have hentries : Plain (.map (textEntries [("b", .list items), ("a", .text "é\n\"😀")])) := by
      refine .map (by decide) ?_
      simp only [List.forall_mem_cons]
      exact ⟨.list hitems, .leaf trivial, by simp⟩
    exact hentries
  obtain ⟨text', entries, hwrite, hread, hform, hagain⟩ := readObject_writeCanonical hplain
  have htext : writeCanonical (.map fields) = .ok text := by cbv
  have hentries : canonical (.map fields) = .map fields.reverse := by cbv
  cases hwrite.symm.trans htext
  cases hform.trans hentries
  exact ⟨hplain, htext, hread, hagain⟩

end Ancestry.File
