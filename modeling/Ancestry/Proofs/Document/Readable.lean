import Mathlib
import Ancestry.Proofs.Document.Accepted
import Ancestry.Proofs.Json.Recognized

/-!
# Every file is read, unless an integer is in the way

A file that cannot be read counts as one with the empty object: one whose bytes encode no text, one
whose text does not follow the grammar, and one that holds a document but no object.  Loading then
comes to a table, to complaints about the shape, or for the core system to the refusal of an empty
name, and to nothing else (`IsAnswered`).

There is one kind of file of which this is not true.  A text that follows the grammar up to an
integer of too many digits is neither read nor taken for the empty object (`IsOverlong`), whatever
comes after the integer and whatever the document holds besides.

Two things are left out.  Of a document in which half a character stands alone nothing is said
(`HasLoneHalf`): every theorem here is about the other files.  And there is no limit here to how
deep arrays and objects may stand in one another.  In an interpreter there is one, and to bring some
five hundred nested arrays into canonical form already exceeds it; with such files, too, reading
fails.
-/

namespace Ancestry

/-- The file holds a document with this value: its bytes encode a text that is written so. -/
def File.HoldsDocument (file : File) (v : Value) : Prop :=
  ∃ text : String, file = .regular text.toUTF8 ∧ Json.SpellsDocument v text.toList

/-- The file begins as a document does, up to an integer of too many digits. -/
def File.IsOverlong (file : File) : Prop :=
  ∃ text : String, file = .regular text.toUTF8 ∧ Json.Overlong text.toList

/-- The file holds a document with half a character in it that stands alone. -/
def File.HasLoneHalf (file : File) : Prop :=
  ∃ text : String, file = .regular text.toUTF8 ∧ Json.IsBroken text.toList

namespace Document

open Json (canonical)

variable {file : File} {schema : Schema} {dotted : Bool} {path : String} {v : Value}

/-! ## 1. What files hold -/

theorem yields_iff {outcome : Except Json.ReadFailure Value} : file.Yields outcome ↔
    ∃ text : String, file = .regular text.toUTF8 ∧ Json.read text = outcome := by
  constructor
  · rintro ⟨bytes, text, rfl, htext, hread⟩
    exact ⟨text, by rw [Text.fromUTF8?_eq_some_iff.mp htext], hread⟩
  · rintro ⟨text, rfl, hread⟩
    exact yields_of_read hread

theorem holdsDocument_iff : file.HoldsDocument v ↔ file.Yields (.ok v) := by
  rw [yields_iff, File.HoldsDocument]
  simp only [Json.read_eq_ok_iff]

theorem isOverlong_iff : file.IsOverlong ↔ file.Yields (.error .hugeInteger) := by
  rw [yields_iff, File.IsOverlong]
  simp only [Json.read_eq_hugeInteger_iff]

theorem hasLoneHalf_iff : file.HasLoneHalf ↔ file.Yields (.error .loneHalf) := by
  rw [yields_iff, File.HasLoneHalf]
  simp only [Json.read_eq_loneHalf_iff]

/-- A file from which a value is read has nothing in it that is in the way. -/
theorem not_in_the_way (h : file.Yields (.ok v)) : ¬ file.IsOverlong ∧ ¬ file.HasLoneHalf := by
  rw [isOverlong_iff, hasLoneHalf_iff]
  constructor
  · intro hover
    cases yields_unique h hover
  · intro hhalf
    cases yields_unique h hhalf

theorem Shaped.not_hasLoneHalf {entries : Entries} (h : Shaped file schema entries) :
    ¬ file.HasLoneHalf := by
  obtain ⟨_, hread, _⟩ := shaped_iff.mp h
  exact (not_in_the_way hread).2

/-! ## 2. What comes of reading them -/

/-- Loading comes to a table, or to complaints about a document that has not the shape. -/
def IsAnswered {α : Type} (schema : Schema) (outcome : Except LoadError α) : Prop :=
  (∃ table, outcome = .ok table) ∨ ∃ complaints, outcome = .error (.unfit schema complaints)

/-- Loading is answered, or refuses entries that are not fit. -/
theorem Outcome.isAnswered {α : Type} {Fit : Entries → Prop} {Means : α → Entries → Prop}
    {outcome : Except LoadError α} (h : Outcome file schema Fit Means outcome) :
    IsAnswered schema outcome ∨ ∃ entries, Shaped file schema entries ∧ ¬ Fit entries ∧
      outcome = .error (.refused (.violation ⟨.text ("empty " ++
        if "" ∈ entries.map (·.1) then "type_id" else schema.memberField), []⟩)) := by
  by_cases hshape : ∃ entries, Shaped file schema entries
  · obtain ⟨entries, hentries⟩ := hshape
    by_cases hfit : Fit entries
    · exact .inl (.inl (h.accepts.mpr ⟨entries, hentries, hfit⟩))
    · exact .inr ⟨entries, hentries, hfit, h.refuses entries hentries hfit⟩
  · obtain ⟨complaints, hcomplaints, _⟩ := h.complains (not_exists.mp hshape)
    exact .inl (.inr ⟨complaints, hcomplaints⟩)

/-- A file is read: as the object that it holds, and else as the empty one.  Loading is answered,
and a refusal is there for the core system only and for nothing but an empty name. -/
structure IsReadable (file : File) (dotted : Bool) (path : String) : Prop where
  object : ∀ fields, file.HoldsDocument (.map fields) →
    ∃ entries, file.readObject = .ok entries ∧ .map entries = canonical (.map fields)
  otherwise : (∀ fields, ¬ file.HoldsDocument (.map fields)) → file.readObject = .ok []
  supertypes : IsAnswered .supertypes (loadSupertypes dotted path file)
  core : IsAnswered .coreIndex (loadCoreIndex dotted path file) ∨
    ∃ entries, Shaped file .coreIndex entries ∧ ¬ entries.Named ∧
      loadCoreIndex dotted path file = .error (.refused (.violation ⟨.text ("empty " ++
        if "" ∈ entries.map (·.1) then "type_id" else Schema.coreIndex.memberField), []⟩))

/-- **A file is read if no integer of too many digits is in the way.** -/
theorem isReadable_of_not_overlong (hregular : file.isRegular = true)
    (hhalf : ¬ file.HasLoneHalf) (h : ¬ file.IsOverlong) (dotted : Bool) (path : String) :
    IsReadable file dotted path := by
  have hdigits : ¬ file.Yields (.error .hugeInteger) := mt isOverlong_iff.mpr h
  have hhalves : ¬ file.Yields (.error .loneHalf) := mt hasLoneHalf_iff.mpr hhalf
  have hfile : file ≠ .nameTooLong := fun h => by
    rw [h] at hregular
    cases hregular
  refine ⟨fun fields hfields => ?_, fun hnone => ?_, ?_, ?_⟩
  · refine ⟨File.objectEntries (.map fields), ?_, rfl⟩
    exact readObject_of_yields (holdsDocument_iff.mp hfields)
  · refine readObject_of_no_object hfile hdigits hhalves fun fields => ?_
    exact mt holdsDocument_iff.mpr (hnone fields)
  · rcases (loadSupertypes_outcome hregular hdigits hhalves dotted path).isAnswered
      with hanswer | hrefused
    · exact hanswer
    · obtain ⟨_, _, hfit, _⟩ := hrefused
      exact absurd trivial hfit
  · exact (loadCoreIndex_outcome hregular hdigits hhalves dotted path).isAnswered

/-- An integer of too many digits keeps a file from being read at all. -/
structure IsUnread (file : File) (dotted : Bool) (path : String) : Prop where
  object : file.readObject = .error .hugeInteger
  supertypes : loadSupertypes dotted path file = .error .hugeInteger
  core : loadCoreIndex dotted path file = .error .hugeInteger

theorem isUnread_of_overlong (h : file.IsOverlong) (dotted : Bool) (path : String) :
    IsUnread file dotted path := by
  obtain ⟨bytes, text, rfl, htext, hread⟩ := isOverlong_iff.mp h
  have hobject : (File.regular bytes).readObject = .error .hugeInteger := by
    simp only [File.readObject, htext, hread]
  have hpayload : readPayload path (.regular bytes) = .error .hugeInteger := by
    simp only [readPayload, hobject]
    rfl
  refine ⟨hobject, ?_, ?_⟩
  · rw [loadSupertypes, hpayload]
    rfl
  · rw [loadCoreIndex, hpayload]
    rfl

/-- **Which files are read, and as what.**  Whatever the bytes of a file are, it is read as the
object that it holds or as the empty one, and loading is answered, exactly if the bytes do not
encode a text that follows the grammar up to an integer of too many digits.  Such a file is not
read, and nothing is loaded from it.  Documents in which half a character stands alone are left out.
-/
theorem readable_iff (bytes : ByteArray) (hhalf : ¬ (File.regular bytes).HasLoneHalf)
    (dotted : Bool) (path : String) :
    (IsReadable (.regular bytes) dotted path ↔ ¬ (File.regular bytes).IsOverlong) ∧
      (IsUnread (.regular bytes) dotted path ↔ (File.regular bytes).IsOverlong) := by
  have hexclusive : IsReadable (.regular bytes) dotted path →
      ¬ IsUnread (.regular bytes) dotted path := by
    intro hreadable hunread
    rcases hreadable.supertypes with ⟨table, htable⟩ | ⟨complaints, hcomplaints⟩
    · cases htable.symm.trans hunread.supertypes
    · cases hcomplaints.symm.trans hunread.supertypes
  refine ⟨⟨fun h hlong => ?_, fun h => ?_⟩, ⟨fun h => ?_, fun h => ?_⟩⟩
  · exact hexclusive h (isUnread_of_overlong hlong dotted path)
  · exact isReadable_of_not_overlong rfl hhalf h dotted path
  · by_contra hshort
    exact hexclusive (isReadable_of_not_overlong rfl hhalf hshort dotted path) h
  · exact isUnread_of_overlong h dotted path

/-- Two halves that stand together are in nobody's way. -/
theorem readable_iff_pair :
    let text := "\x7b\"a\": \"\\ud83d\\ude00\"\x7d"
    let file : File := .regular text.toUTF8
    ¬ file.HasLoneHalf ∧ IsReadable file false "f" ∧
      file.readObject = .ok [(.text "a", .text "😀")] := by
  intro text file
  have hyields : file.Yields (.ok (.map [(.text "a", .text "😀")])) := yields_of_read (by cbv)
  obtain ⟨hover, hhalf⟩ := not_in_the_way hyields
  refine ⟨hhalf, (readable_iff text.toUTF8 hhalf false "f").1.mpr hover, ?_⟩
  exact readObject_of_yields hyields

/-- A text of nothing but ones is an integer and no object.  With one digit more than are converted
it does not count as the empty object. -/
theorem readObject_ones :
    let ones := List.replicate (Text.maxDigits + 1) '1'
    let file : File := .regular (String.ofList ones).toUTF8
    (∀ fields, ¬ file.HoldsDocument (.map fields)) ∧ file.readObject = .error .hugeInteger ∧
      loadSupertypes false "f" file = .error .hugeInteger := by
  intro ones file
  have hdigits : Text.IsDigits ones :=
    ⟨by simp [ones], fun d hd => by rw [List.eq_of_mem_replicate hd]; rfl⟩
  have hwhole : Json.IsWhole ones := .inr ⟨hdigits, by simp [ones, List.replicate_succ]⟩
  have hend : ¬ Json.GoesOn [] := by simp [Json.goesOn_iff, Json.fractionPart, Json.exponentPart]
  have hlong : Json.LongInteger ones :=
    ⟨ones, [], hwhole, by simp [ones], hend, (List.append_nil _).symm⟩
  have hover : file.IsOverlong :=
    ⟨_, rfl, [], ones, Json.blank_nil, .integer hlong, String.toList_ofList⟩
  have hunread := isUnread_of_overlong hover false "f"
  refine ⟨fun fields hfields => ?_, hunread.object, hunread.supertypes⟩
  cases yields_unique (isOverlong_iff.mp hover) (holdsDocument_iff.mp hfields)

end Document
end Ancestry
