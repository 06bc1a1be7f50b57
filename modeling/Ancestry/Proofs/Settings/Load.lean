import Ancestry.Proofs.Toml.Scripts
import Ancestry.Settings.Load

/-!
# Which configuration files set something

A file sets what its table says, and one that has no table sets nothing: one that is not there, a
directory, and one whose text does not follow the grammar or contradicts itself (`IsLoaded`).

Two kinds of files are not passed over, although nothing can be read from them: those whose bytes
encode no text (`IsGarbled`), and those whose text comes to an integer of too many digits after
statements that can be carried out (`IsLongScript`).  `isLoaded_iff` says that there are no others,
as far as this goes: there is no limit here to how deep arrays and tables may stand in one another,
as there is one in an interpreter, where reading fails beyond it.
-/

namespace Ancestry

namespace File

/-- The file holds the table: its bytes encode a text of which the statements build it. -/
def HoldsTable (file : File) (entries : List (Value × Value)) : Prop :=
  ∃ (text : String) (ss : List Toml.Statement), file = .regular text.toUTF8 ∧
    Toml.SpellsScript ss (Settings.unifyBreaks text.toList) ∧ Toml.build ss = some entries

/-- The bytes of the file encode no text. -/
def IsGarbled (file : File) : Prop :=
  ∃ bytes, file = .regular bytes ∧ ∀ text : String, bytes ≠ text.toUTF8

/-- The file begins as a script does, up to an integer of too many digits, and the statements in
front of the integer do not contradict each other. -/
def IsLongScript (file : File) : Prop :=
  ∃ (text : String) (ss : List Toml.Statement), file = .regular text.toUTF8 ∧
    Toml.Overlong ss (Settings.unifyBreaks text.toList) ∧ (Toml.build ss).isSome = true

/-- The file sets this: what the section of its table says that counts, and nothing if there is no
such section.  It is neither garbled nor comes to an integer of too many digits. -/
structure Sets (file : File) (settings : Settings) : Prop where
  readable : ¬ file.IsGarbled
  short : ¬ file.IsLongScript
  told : ∀ entries es, file.HoldsTable entries →
    Value.find? entries "closure" = some (.map es) → settings = ⟨es⟩
  silent : (∀ entries es, file.HoldsTable entries →
    Value.find? entries "closure" ≠ some (.map es)) → settings = .empty

end File

namespace Settings

variable {file : File} {entries : List (Value × Value)} {settings : Settings}

/-! ## 1. What is loaded -/

theorem loadTable_holdsTable (h : file.HoldsTable entries) : loadTable file = .ok entries := by
  obtain ⟨text, ss, rfl, hss, hbuild⟩ := h
  have hread : Toml.read (String.ofList (unifyBreaks text.toList)) = .ok entries :=
    Toml.read_eq_ok_iff.mpr ⟨ss, by rw [String.toList_ofList]; exact hss, hbuild⟩
  simp only [loadTable, Text.fromUTF8?_toUTF8, hread]

theorem loadTable_garbled (h : file.IsGarbled) : loadTable file = .error .notUnicode := by
  obtain ⟨bytes, rfl, htext⟩ := h
  have hnone : String.fromUTF8? bytes = none :=
    Option.eq_none_iff_forall_ne_some.mpr fun text heq =>
      htext text (Text.fromUTF8?_eq_some_iff.mp heq)
  simp only [loadTable, hnone]

theorem loadTable_longScript (h : file.IsLongScript) : loadTable file = .error .hugeInteger := by
  obtain ⟨text, ss, rfl, hss, hbuild⟩ := h
  have hread : Toml.read (String.ofList (unifyBreaks text.toList)) = .error .hugeInteger :=
    Toml.read_eq_hugeInteger_iff.mpr ⟨ss, by rw [String.toList_ofList]; exact hss, hbuild⟩
  simp only [loadTable, Text.fromUTF8?_toUTF8, hread]

/-- What a file is loaded as, it is for one of four reasons. -/
theorem loadTable_cases (file : File) : (∃ entries, file.HoldsTable entries) ∨ file.IsGarbled ∨
    file.IsLongScript ∨ loadTable file = .ok [] := by
  cases file with
  | missing => exact .inr (.inr (.inr rfl))
  | nameTooLong => exact .inr (.inr (.inr rfl))
  | directory => exact .inr (.inr (.inr rfl))
  | regular bytes =>
    cases htext : String.fromUTF8? bytes with
    | none =>
      refine .inr (.inl ⟨bytes, rfl, fun text heq => ?_⟩)
      rw [Text.fromUTF8?_eq_some_iff.mpr heq] at htext
      cases htext
    | some text =>
      cases Text.fromUTF8?_eq_some_iff.mp htext
      cases hread : Toml.read (String.ofList (unifyBreaks text.toList)) with
      | ok entries =>
        obtain ⟨ss, hss, hbuild⟩ := Toml.read_eq_ok_iff.mp hread
        rw [String.toList_ofList] at hss
        exact .inl ⟨entries, text, ss, rfl, hss, hbuild⟩
      | error e =>
        cases e with
        | malformed =>
          refine .inr (.inr (.inr ?_))
          simp only [loadTable, Text.fromUTF8?_toUTF8, hread]
        | hugeInteger =>
          obtain ⟨ss, hss, hbuild⟩ := Toml.read_eq_hugeInteger_iff.mp hread
          rw [String.toList_ofList] at hss
          exact .inr (.inr (.inl ⟨text, ss, rfl, hss, hbuild⟩))

/-! ## 2. What is set -/

/-- A file sets what the section of its table says that counts, and without such a section
nothing. -/
structure IsLoaded (file : File) : Prop where
  table : ∀ entries, file.HoldsTable entries → loadTable file = .ok entries
  noTable : (∀ entries, ¬ file.HoldsTable entries) → loadTable file = .ok []
  settings : ∀ entries settings, file.HoldsTable entries →
    Value.find? entries sectionName = some (.map settings) → load file = .ok ⟨settings⟩
  noSettings : (∀ entries settings, file.HoldsTable entries →
    Value.find? entries sectionName ≠ some (.map settings)) → load file = .ok empty

theorem load_eq (h : loadTable file = .ok entries) : load file = .ok (ofTable entries) := by
  rw [load, h]
  rfl

theorem ofTable_map {settings : List (Value × Value)}
    (h : Value.find? entries sectionName = some (.map settings)) :
    ofTable entries = ⟨settings⟩ := by
  rw [ofTable, h]
  rfl

theorem ofTable_eq_empty (h : ∀ settings, Value.find? entries sectionName ≠ some (.map settings)) :
    ofTable entries = empty := by
  unfold ofTable
  split
  · next v hfind =>
    unfold ofValue
    split
    · next settings => exact absurd hfind (h settings)
    · rfl
  · rfl

theorem isLoaded_of_ok (hentries : loadTable file = .ok entries)
    (hnone : (∀ entries', ¬ file.HoldsTable entries') → entries = []) : IsLoaded file := by
  refine ⟨fun _ => loadTable_holdsTable, fun h => hnone h ▸ hentries, ?_, fun h => ?_⟩
  · intro entries' settings hholds hfind
    rw [load_eq (loadTable_holdsTable hholds), ofTable_map hfind]
  · rw [load_eq hentries]
    by_cases hholds : ∃ entries', file.HoldsTable entries'
    · obtain ⟨entries', hentries'⟩ := hholds
      cases hentries.symm.trans (loadTable_holdsTable hentries')
      rw [ofTable_eq_empty fun settings => h _ settings hentries']
    · rw [hnone (not_exists.mp hholds)]
      rfl

/-- What is refused is not loaded. -/
theorem not_isLoaded {e : LoadError} (h : loadTable file = .error e) : ¬ IsLoaded file := by
  intro hloaded
  by_cases hholds : ∃ entries, file.HoldsTable entries
  · obtain ⟨entries, hentries⟩ := hholds
    cases h.symm.trans (loadTable_holdsTable hentries)
  · cases h.symm.trans (hloaded.noTable (not_exists.mp hholds))

theorem load_eq_error_iff {e : LoadError} : load file = .error e ↔ loadTable file = .error e := by
  rw [load]
  exact ⟨map_eq_error, fun h => by rw [h]; rfl⟩

/-- A file is refused for its bytes exactly if they encode no text. -/
theorem load_eq_notUnicode_iff : load file = .error .notUnicode ↔ file.IsGarbled := by
  rw [load_eq_error_iff]
  refine ⟨fun h => ?_, loadTable_garbled⟩
  rcases loadTable_cases file with ⟨entries, hholds⟩ | hgarbled | hlong | hnone
  · cases h.symm.trans (loadTable_holdsTable hholds)
  · exact hgarbled
  · cases h.symm.trans (loadTable_longScript hlong)
  · cases h.symm.trans hnone

/-- A file is refused for an integer exactly if it comes to one of too many digits. -/
theorem load_eq_hugeInteger_iff : load file = .error .hugeInteger ↔ file.IsLongScript := by
  rw [load_eq_error_iff]
  refine ⟨fun h => ?_, loadTable_longScript⟩
  rcases loadTable_cases file with ⟨entries, hholds⟩ | hgarbled | hlong | hnone
  · cases h.symm.trans (loadTable_holdsTable hholds)
  · cases h.symm.trans (loadTable_garbled hgarbled)
  · exact hlong
  · cases h.symm.trans hnone

/-- A file is loaded if none of the two obstacles is in it. -/
theorem isLoaded_of_readable (hgarbled : ¬ file.IsGarbled) (hlong : ¬ file.IsLongScript) :
    IsLoaded file := by
  rcases loadTable_cases file with ⟨entries, hholds⟩ | h | h | hnone
  · exact isLoaded_of_ok (loadTable_holdsTable hholds) fun hnone => absurd hholds (hnone entries)
  · exact absurd h hgarbled
  · exact absurd h hlong
  · exact isLoaded_of_ok hnone fun _ => rfl

/-- **Which files are loaded.**  Whatever stands at the path, it sets what it holds, or nothing,
exactly if it is not garbled and does not come to an integer of too many digits.  All other files
are refused, for the one reason or the other. -/
theorem isLoaded_iff (file : File) :
    (IsLoaded file ↔ ¬ file.IsGarbled ∧ ¬ file.IsLongScript) ∧
      (load file = .error .notUnicode ↔ file.IsGarbled) ∧
      (load file = .error .hugeInteger ↔ file.IsLongScript) := by
  refine ⟨⟨fun h => ⟨fun hgarbled => ?_, fun hlong => ?_⟩, fun h => ?_⟩, load_eq_notUnicode_iff,
    load_eq_hugeInteger_iff⟩
  · exact not_isLoaded (loadTable_garbled hgarbled) h
  · exact not_isLoaded (loadTable_longScript hlong) h
  · exact isLoaded_of_readable h.1 h.2

/-- **What is loaded from a file is what it sets.** -/
theorem load_eq_ok_iff : load file = .ok settings ↔ file.Sets settings := by
  constructor
  · intro h
    have hreadable : ¬ file.IsGarbled := fun hbad => by
      cases h.symm.trans (load_eq_notUnicode_iff.mpr hbad)
    have hshort : ¬ file.IsLongScript := fun hbad => by
      cases h.symm.trans (load_eq_hugeInteger_iff.mpr hbad)
    have hsets := isLoaded_of_readable hreadable hshort
    refine ⟨hreadable, hshort, fun entries es hholds hfind => ?_, fun hnone => ?_⟩
    · exact Except.ok.inj (h.symm.trans (hsets.settings entries es hholds hfind))
    · exact Except.ok.inj (h.symm.trans (hsets.noSettings hnone))
  · intro h
    have hsets := isLoaded_of_readable h.readable h.short
    by_cases htold : ∃ entries es, file.HoldsTable entries ∧
        Value.find? entries "closure" = some (.map es)
    · obtain ⟨entries, es, hholds, hfind⟩ := htold
      rw [h.told entries es hholds hfind]
      exact hsets.settings entries es hholds hfind
    · have hnone : ∀ entries es, file.HoldsTable entries →
          Value.find? entries "closure" ≠ some (.map es) :=
        fun entries es hholds hfind => htold ⟨entries, es, hholds, hfind⟩
      rw [h.silent hnone]
      exact hsets.noSettings hnone

/-- A byte that begins no character makes a file that holds no table and is not passed over. -/
theorem load_garbled_byte :
    let file : File := .regular ⟨#[0xFF]⟩
    (∀ entries, ¬ file.HoldsTable entries) ∧ loadTable file = .error .notUnicode ∧
      load file = .error .notUnicode := by
  intro file
  have hbytes : String.fromUTF8? ⟨#[0xFF]⟩ = none := by decide
  have htable : loadTable file = .error .notUnicode := by simp only [file, loadTable, hbytes]
  refine ⟨fun entries hholds => ?_, htable, load_eq_error_iff.mpr htable⟩
  cases htable.symm.trans (loadTable_holdsTable hholds)

end Settings
end Ancestry
