import Mathlib
import Ancestry.Proofs.Document.Offends
import Ancestry.Proofs.Document.Refused
import Ancestry.Proofs.Json.Reordered

/-!
# Which files are loaded, and what is wrong with the others

A file goes through several hands before there is a table: its bytes are decoded, the text is read,
an object is brought to canonical form, its field is checked, names are converted and entries
united, and for the core system empty names are refused.  What comes of all this is said here of the
file itself.  A table comes of it exactly if the value that was read has the shape, and the table
says what that value says.  Otherwise there is a complaint about every place at which that value
differs from the shape, and no other one (`Due`).  The order in which the entries of objects are
written does not matter to any of this, because it is not in the canonical value.

Two kinds of files are outside of this.  One that comes to an integer of too many digits is not read
at all.  And what becomes of half a character that stands alone is left open (`File.ReadFailure`).
-/

namespace Ancestry

/-- The bytes of the file are a text, and this is what comes of reading it. -/
def File.Yields (file : File) (outcome : Except Json.ReadFailure Value) : Prop :=
  ∃ bytes text, file = .regular bytes ∧ String.fromUTF8? bytes = some text ∧
    Json.read text = outcome

namespace Document

open Json (Tree IsScalar canonical Reordered sortEntries textEntries textEntries_injective tree_map)

variable {file file' : File} {schema : Schema} {entries : Entries} {dotted : Bool}
  {fields : List (Value × Value)} {es : List (String × Value)} {v v' : Value} {path : String}

/-- A complaint that is due about a file.  One about the missing field is due also if no object is
read from the file. -/
inductive Due (file : File) (schema : Schema) : Complaint → Prop
  | missing (hfield : ∀ fields v, file.Yields (.ok (.map fields)) →
      Value.find? fields schema.field ≠ some v) :
    Due file schema ⟨.missing, [.name schema.field]⟩
  | notObject {fields : List (Value × Value)} {v : Value} (hread : file.Yields (.ok (.map fields)))
    (hfield : Value.find? fields schema.field = some v) (hv : ∀ es, v ≠ .map es) :
    Due file schema ⟨.notObject, [.name schema.field]⟩
  | notArray {fields es : List (Value × Value)} {key : String} {v : Value}
    (hread : file.Yields (.ok (.map fields)))
    (hfield : Value.find? fields schema.field = some (.map es)) (hentry : (.text key, v) ∈ es)
    (hv : ∀ xs, v ≠ .list xs) :
    Due file schema ⟨.notArray, [.name schema.field, .name key]⟩
  | notText {fields es : List (Value × Value)} {key : String} {xs : List Value} {n : Nat}
    {x : Value} (hread : file.Yields (.ok (.map fields)))
    (hfield : Value.find? fields schema.field = some (.map es))
    (hentry : (.text key, .list xs) ∈ es) (hx : xs[n]? = some x) (htext : ∀ s, x ≠ .text s) :
    Due file schema ⟨.notText, [.name schema.field, .name key, .index n]⟩

/-- The complaints are those that are due, each once, in ascending order of the keys and for each
key of the indices. -/
structure Tells (file : File) (schema : Schema) (complaints : List Complaint) : Prop where
  mem_iff : ∀ c, c ∈ complaints ↔ Due file schema c
  ordered : complaints.Pairwise fun c c' => Place.Before [.name schema.field] c.place c'.place

/-! ## 1. What is read from a file -/

theorem yields_unique {outcome outcome' : Except Json.ReadFailure Value} (h : file.Yields outcome)
    (h' : file.Yields outcome') : outcome = outcome' := by
  obtain ⟨bytes, text, rfl, htext, rfl⟩ := h
  obtain ⟨_, _, hfile, htext', rfl⟩ := h'
  cases hfile
  cases htext.symm.trans htext'
  rfl

/-- The file with a text that is read with this outcome. -/
theorem yields_of_read {text : String} {outcome : Except Json.ReadFailure Value}
    (h : Json.read text = outcome) : File.Yields (.regular text.toUTF8) outcome :=
  ⟨text.toUTF8, text, rfl, dif_pos text.isValidUTF8, h⟩

theorem isRegular_of_yields {outcome : Except Json.ReadFailure Value} (h : file.Yields outcome) :
    file.isRegular = true := by
  obtain ⟨_, _, rfl, _⟩ := h
  rfl

theorem tree_of_yields (h : file.Yields (.ok v)) : Tree IsScalar v := by
  obtain ⟨_, _, _, _, hread⟩ := h
  exact Json.tree_of_read hread

theorem readObject_of_yields (h : file.Yields (.ok v)) :
    file.readObject = .ok (File.objectEntries v) := by
  obtain ⟨bytes, text, rfl, htext, hread⟩ := h
  simp only [File.readObject, htext, hread]

/-- Where no object is read, the empty one takes its place. -/
theorem readObject_of_no_object (hfile : file ≠ .nameTooLong)
    (hdigits : ¬ file.Yields (.error .hugeInteger)) (hhalves : ¬ file.Yields (.error .loneHalf))
    (h : ∀ fields, ¬ file.Yields (.ok (.map fields))) : file.readObject = .ok [] := by
  cases file with
  | regular bytes =>
    cases htext : String.fromUTF8? bytes with
    | none => simp only [File.readObject, htext]
    | some text =>
      have hyields : File.Yields (.regular bytes) (Json.read text) := ⟨_, _, rfl, htext, rfl⟩
      cases hread : Json.read text with
      | error e =>
        cases e with
        | malformed => simp only [File.readObject, htext, hread]
        | hugeInteger => exact absurd (hread ▸ hyields) hdigits
        | loneHalf => exact absurd (hread ▸ hyields) hhalves
      | ok v =>
        rw [hread] at hyields
        rw [readObject_of_yields hyields]
        rcases map_of_tree (tree_of_yields hyields) with ⟨es, rfl, _⟩ | hv
        · exact absurd hyields (h _)
        · cases v with
          | map es => exact absurd rfl (hv es)
          | list xs => rfl
          | _ => rfl
  | nameTooLong => exact absurd rfl hfile
  | _ => rfl

theorem shaped_iff : Shaped file schema entries ↔ ∃ fields, file.Yields (.ok (.map fields)) ∧
    Value.find? fields schema.field = some entries.toValue := by
  constructor
  · rintro ⟨bytes, text, fields, hfile, htext, hread, hfield⟩
    exact ⟨fields, ⟨bytes, text, hfile, htext, hread⟩, hfield⟩
  · rintro ⟨fields, ⟨bytes, text, hfile, htext, hread⟩, hfield⟩
    exact ⟨bytes, text, fields, hfile, htext, hread, hfield⟩

/-- What a file says is determined by it. -/
theorem shaped_unique {entries' : Entries} (h : Shaped file schema entries)
    (h' : Shaped file schema entries') : entries = entries' := by
  obtain ⟨fields, hread, hfield⟩ := shaped_iff.mp h
  obtain ⟨fields', hread', hfield'⟩ := shaped_iff.mp h'
  cases yields_unique hread hread'
  exact toValue_injective (Option.some.inj (hfield.symm.trans hfield'))

/-! ## 2. The complaints -/

/-- The canonical value of an object has the canonical values of its entries. -/
theorem find?_canonical (h : (es.map (·.1)).Nodup) (key : String) :
    Value.find? (textEntries (sortEntries (es.map fun e => (e.1, canonical e.2)))) key =
      (Value.find? (textEntries es) key).map canonical := by
  refine Option.ext fun w => ?_
  rw [Json.find?_textEntries (Json.ascending_sortEntries _).nodup, Json.mem_sorted_canonical h,
    Option.map_eq_some_iff]
  simp only [Json.find?_textEntries h]

/-- Every complaint about an object that stands under the field is due, and there is one for all
that are due. -/
theorem due_iff (hread : file.Yields (.ok (.map fields)))
    (hfield : Value.find? fields schema.field = some (.map (textEntries es))) {c : Complaint} :
    Due file schema c ↔ ∃ e ∈ es,
      (∀ xs, e.2 ≠ .list xs) ∧ c = ⟨.notArray, [.name schema.field, .name e.1]⟩ ∨
        ∃ (xs : List Value) (n : Nat) (x : Value), e.2 = .list xs ∧ xs[n]? = some x ∧
          (∀ s, x ≠ .text s) ∧ c = ⟨.notText, [.name schema.field, .name e.1, .index n]⟩ := by
  have hmem : ∀ {fields' es' key v}, file.Yields (.ok (.map fields')) →
      Value.find? fields' schema.field = some (.map es') → (.text key, v) ∈ es' →
        (key, v) ∈ es := by
    intro fields' es' key v hread' hfield' hentry
    cases yields_unique hread hread'
    cases hfield.symm.trans hfield'
    obtain ⟨⟨_, _⟩, he, heq⟩ := List.mem_map.mp hentry
    cases heq
    exact he
  constructor
  · intro h
    cases h with
    | missing hnone => exact absurd hfield (hnone fields _ hread)
    | notObject hread' hfield' hv =>
      cases yields_unique hread hread'
      cases hfield.symm.trans hfield'
      exact absurd rfl (hv _)
    | notArray hread' hfield' hentry hv => exact ⟨_, hmem hread' hfield' hentry, .inl ⟨hv, rfl⟩⟩
    | notText hread' hfield' hentry hx htext =>
      exact ⟨_, hmem hread' hfield' hentry, .inr ⟨_, _, _, rfl, hx, htext, rfl⟩⟩
  · rintro ⟨⟨key, v⟩, he, hcases⟩
    have hentry : (.text key, v) ∈ textEntries es := List.mem_map.mpr ⟨_, he, rfl⟩
    rcases hcases with ⟨hv, rfl⟩ | ⟨xs, n, x, rfl, hx, htext, rfl⟩
    · exact .notArray hread hfield hentry hv
    · exact .notText hread hfield hentry hx htext

/-- If one complaint about the field is due and no other, it is all that is told. -/
theorem tells_singleton {flaw : Flaw} (hdue : Due file schema ⟨flaw, [.name schema.field]⟩)
    (h : ∀ c, Due file schema c → c = ⟨flaw, [.name schema.field]⟩) :
    Tells file schema [⟨flaw, [.name schema.field]⟩] := by
  refine ⟨fun c => ?_, List.pairwise_singleton _ _⟩
  rw [List.mem_singleton]
  exact ⟨fun hc => hc ▸ hdue, h c⟩

/-- **Which complaints there are, and in which order, is determined by what is due.** -/
theorem tells_unique {complaints complaints' : List Complaint}
    (h : Tells file schema complaints) (h' : Tells file schema complaints') :
    complaints = complaints' := by
  have hnodup : ∀ {cs : List Complaint}, Tells file schema cs → cs.Nodup := fun hcs =>
    hcs.ordered.imp fun hbefore heq => hbefore.ne (congrArg Complaint.place heq)
  have hperm : complaints.Perm complaints' :=
    (List.perm_ext_iff_of_nodup (hnodup h) (hnodup h')).mpr fun c =>
      (h.mem_iff c).trans (h'.mem_iff c).symm
  exact hperm.eq_of_pairwise (fun c c' _ _ hcc' hc'c => absurd hc'c hcc'.asymm) h.ordered h'.ordered

/-- Where the field is missing, nothing else can be wrong. -/
theorem tells_missing (h : ∀ fields v, file.Yields (.ok (.map fields)) →
    Value.find? fields schema.field ≠ some v) :
    Tells file schema [⟨.missing, [.name schema.field]⟩] := by
  refine tells_singleton (.missing h) fun c hdue => ?_
  cases hdue with
  | missing => rfl
  | notObject hread hfield => exact absurd hfield (h _ _ hread)
  | notArray hread hfield => exact absurd hfield (h _ _ hread)
  | notText hread hfield => exact absurd hfield (h _ _ hread)

/-- Where the field is no object, nothing else can be wrong. -/
theorem tells_notObject (hread : file.Yields (.ok (.map fields)))
    (hfield : Value.find? fields schema.field = some v) (hv : ∀ es, v ≠ .map es) :
    Tells file schema [⟨.notObject, [.name schema.field]⟩] := by
  have hnone : ∀ {fields' es}, file.Yields (.ok (.map fields')) →
      Value.find? fields' schema.field ≠ some (.map es) := by
    intro fields' es hread' hfield'
    cases yields_unique hread hread'
    exact hv es (Option.some.inj (hfield.symm.trans hfield'))
  refine tells_singleton (.notObject hread hfield hv) fun c hdue => ?_
  cases hdue with
  | missing hmissing => exact absurd hfield (hmissing _ _ hread)
  | notObject => rfl
  | notArray hread' hfield' => exact absurd hfield' (hnone hread')
  | notText hread' hfield' => exact absurd hfield' (hnone hread')

/-- The complaints about the canonical value of an object under the field are those that are due. -/
theorem tells_checkEntries (hread : file.Yields (.ok (.map fields)))
    (hfield : Value.find? fields schema.field = some (.map (textEntries es)))
    (hkeys : (es.map (·.1)).Nodup) (hes : ∀ e ∈ es, Tree IsScalar e.2) :
    Tells file schema (checkEntries [.name schema.field]
      (textEntries (sortEntries (es.map fun e => (e.1, canonical e.2))))).complaints := by
  have hmem := Json.mem_sorted_canonical hkeys
  refine ⟨fun c => ?_, ordered_checkEntries (Json.ascending_sortEntries _) (fun e he => ?_) _⟩
  · have hdue : c ∈ (checkEntries [.name schema.field] (textEntries es)).complaints ↔
        Due file schema c := (mem_checkEntries hes).trans (due_iff hread hfield).symm
    rw [← hdue, complaints_checkEntries, complaints_checkEntries, List.mem_flatMap,
      List.mem_flatMap]
    constructor
    · rintro ⟨e, he, hc⟩
      obtain ⟨v, hv, hcanonical⟩ := (hmem e).mp he
      rw [← hcanonical, checkArray_canonical] at hc
      exact ⟨(e.1, v), hv, hc⟩
    · rintro ⟨⟨key, v⟩, hv, hc⟩
      refine ⟨(key, canonical v), (hmem _).mpr ⟨v, hv, rfl⟩, ?_⟩
      rwa [checkArray_canonical]
  · obtain ⟨v, hv, hcanonical⟩ := (hmem e).mp he
    rw [← hcanonical]
    exact (hes _ hv).canonical Json.canonical_scalar

/-- Where the fields that were read differ from the shape, a complaint is due. -/
theorem exists_due (hread : file.Yields (.ok (.map fields))) {p : List Place}
    (h : Offends schema fields p) : ∃ c, Due file schema c := by
  cases h with
  | missing hnone =>
    refine ⟨_, .missing fun fields' v hread' hfield' => ?_⟩
    cases yields_unique hread hread'
    cases hnone.symm.trans hfield'
  | notObject hfield hv => exact ⟨_, .notObject hread hfield hv⟩
  | notArray hfield hentry hv => exact ⟨_, .notArray hread hfield hentry hv⟩
  | notText hfield hentry hx htext => exact ⟨_, .notText hread hfield hentry hx htext⟩

/-- The canonical form of an object fails the check if the object has not the shape. -/
theorem check_of_object (hread : file.Yields (.ok (.map fields)))
    (hshape : ∀ entries, ¬ Shaped file schema entries) :
    ∃ complaints, check schema (.map (File.objectEntries (.map fields))) = .error complaints ∧
      Tells file schema complaints := by
  have htree := tree_of_yields hread
  obtain ⟨all, rfl, hkeys, htrees⟩ := tree_map htree
  have hfind := find?_canonical hkeys schema.field
  rw [File.objectEntries, Json.canonical_map]
  cases hfield : Value.find? (textEntries all) schema.field with
  | none =>
    rw [hfield, Option.map_none] at hfind
    refine ⟨[⟨.missing, [.name schema.field]⟩], by simp only [check, hfind],
      tells_missing fun fields' v hread' hfield' => ?_⟩
    cases yields_unique hread hread'
    cases hfield.symm.trans hfield'
  | some v =>
    rw [hfield, Option.map_some] at hfind
    rcases map_of_tree (htrees _ ((Json.find?_textEntries hkeys).mp hfield)) with
      ⟨es, rfl, hnodup, hes⟩ | hv
    · have htells := tells_checkEntries hread hfield hnodup hes
      refine ⟨_, ?_, htells⟩
      rw [Json.canonical_map] at hfind
      simp only [check, hfind, List.isEmpty_iff]
      refine if_neg fun hnil => ?_
      -- Without a complaint the object would have the shape.
      obtain ⟨entries, hentries⟩ := exists_entries htree fun p hoffends => by
        obtain ⟨c, hdue⟩ := exists_due hread hoffends
        have hc := (htells.mem_iff c).mpr hdue
        rw [hnil] at hc
        exact List.not_mem_nil hc
      exact hshape entries (shaped_iff.mpr ⟨_, hread, hentries⟩)
    · refine ⟨_, ?_, tells_notObject hread hfield hv⟩
      rw [check, hfind]
      split
      · next heq => cases heq
      · next heq =>
        cases v with
        | map es => exact absurd rfl (hv es)
        | _ => cases heq
      · rfl

/-- **A file that has not the shape fails the check**, and the complaints are those that are due. -/
theorem exists_complaints (hregular : file.isRegular = true)
    (hdigits : ¬ file.Yields (.error .hugeInteger)) (hhalves : ¬ file.Yields (.error .loneHalf))
    (hshape : ∀ entries, ¬ Shaped file schema entries) : ∃ fields complaints,
      file.readObject = .ok fields ∧ check schema (.map fields) = .error complaints ∧
        Tells file schema complaints := by
  by_cases hobject : ∃ fields, file.Yields (.ok (.map fields))
  · obtain ⟨fields, hread⟩ := hobject
    obtain ⟨complaints, hcheck, htells⟩ := check_of_object hread hshape
    exact ⟨_, complaints, readObject_of_yields hread, hcheck, htells⟩
  · have hnone := not_exists.mp hobject
    have hfile : file ≠ .nameTooLong := fun h => by
      rw [h] at hregular
      cases hregular
    refine ⟨[], _, readObject_of_no_object hfile hdigits hhalves hnone, rfl, tells_missing ?_⟩
    exact fun fields v hread => absurd hread (hnone fields)

/-! ## 3. The outcome -/

/-- No name in the entries is empty. -/
def Entries.Named (entries : Entries) : Prop := ∀ e ∈ entries, e.1 ≠ "" ∧ "" ∉ e.2

/-- What loading a file comes to.  There is a table exactly if the file has the shape and its
entries are fit, and the table says what they say.  Entries that are not fit are refused because of
an empty name, and a file that has not the shape with the complaints that are due about it. -/
structure Outcome {α : Type} (file : File) (schema : Schema) (Fit : Entries → Prop)
    (Means : α → Entries → Prop) (outcome : Except LoadError α) : Prop where
  accepts : (∃ table, outcome = .ok table) ↔ ∃ entries, Shaped file schema entries ∧ Fit entries
  tabulates : ∀ table entries, outcome = .ok table → Shaped file schema entries →
    Means table entries
  refuses : ∀ entries, Shaped file schema entries → ¬ Fit entries →
    outcome = .error (.refused (.violation ⟨.text ("empty " ++
      if "" ∈ entries.map (·.1) then "type_id" else schema.memberField), []⟩))
  complains : (∀ entries, ¬ Shaped file schema entries) → ∃ complaints,
    outcome = .error (.unfit schema complaints) ∧ Tells file schema complaints

variable {α : Type} {Fit : Entries → Prop} {Means : α → Entries → Prop}
  {outcome : Except LoadError α}

/-- The outcome is what it should be if it is so for the entries of the file, and without any. -/
theorem outcome_of_cases
    (hfit : ∀ entries, Shaped file schema entries → Fit entries →
      ∃ table, outcome = .ok table ∧ Means table entries)
    (hunfit : ∀ entries, Shaped file schema entries → ¬ Fit entries →
      outcome = .error (.refused (.violation ⟨.text ("empty " ++
        if "" ∈ entries.map (·.1) then "type_id" else schema.memberField), []⟩)))
    (hnone : (∀ entries, ¬ Shaped file schema entries) → ∃ complaints,
      outcome = .error (.unfit schema complaints) ∧ Tells file schema complaints) :
    Outcome file schema Fit Means outcome := by
  have hok : ∀ table, outcome = .ok table →
      ∃ entries, Shaped file schema entries ∧ Fit entries ∧ Means table entries := by
    intro table htable
    by_cases hshaped : ∃ entries, Shaped file schema entries
    · obtain ⟨entries, hentries⟩ := hshaped
      by_cases hentriesFit : Fit entries
      · obtain ⟨table', htable', hmeans⟩ := hfit entries hentries hentriesFit
        cases htable.symm.trans htable'
        exact ⟨entries, hentries, hentriesFit, hmeans⟩
      · cases htable.symm.trans (hunfit entries hentries hentriesFit)
    · obtain ⟨complaints, hcomplaints, _⟩ := hnone (not_exists.mp hshaped)
      cases htable.symm.trans hcomplaints
  refine ⟨⟨?_, ?_⟩, ?_, hunfit, hnone⟩
  · rintro ⟨table, htable⟩
    obtain ⟨entries, hentries, hentriesFit, _⟩ := hok table htable
    exact ⟨entries, hentries, hentriesFit⟩
  · rintro ⟨entries, hentries, hentriesFit⟩
    obtain ⟨table, htable, _⟩ := hfit entries hentries hentriesFit
    exact ⟨table, htable⟩
  · intro table entries htable hentries
    obtain ⟨entries', hentries', _, hmeans⟩ := hok table htable
    rwa [shaped_unique hentries hentries']

theorem represents_congr {table : List (TypeName × TypeSet)} {entries' : Entries}
    (h : Represents table dotted entries) (hmem : ∀ e, e ∈ entries ↔ e ∈ entries') :
    Represents table dotted entries' := by
  refine ⟨h.nodup, fun t => (h.mem_keys t).trans ?_,
    fun t set ht s => (h.mem_set t set ht s).trans ?_⟩
  · exact exists_congr fun e => and_congr_left fun _ => hmem e
  · exact exists_congr fun e => and_congr_left fun _ => hmem e

/-- A file that has not the shape is reported, whatever is made of the others. -/
theorem parse_of_not_shaped (hregular : file.isRegular = true)
    (hdigits : ¬ file.Yields (.error .hugeInteger)) (hhalves : ¬ file.Yields (.error .loneHalf))
    (hshape : ∀ entries, ¬ Shaped file schema entries) (dotted : Bool) (path : String) :
    ∃ v complaints, readPayload path file = .ok v ∧
      parse schema dotted v = .error (.unfit schema complaints) ∧
        Tells file schema complaints := by
  obtain ⟨fields, complaints, hread, hcheck, htells⟩ :=
    exists_complaints hregular hdigits hhalves hshape
  refine ⟨_, complaints, readPayload_eq hregular hread path, ?_, htells⟩
  rw [parse, hcheck]

/-- **What comes of loading supertypes.**  All entries are fit. -/
theorem loadSupertypes_outcome (hregular : file.isRegular = true)
    (hdigits : ¬ file.Yields (.error .hugeInteger)) (hhalves : ¬ file.Yields (.error .loneHalf))
    (dotted : Bool) (path : String) :
    Outcome file .supertypes (fun _ => True) (Represents · dotted ·)
      (loadSupertypes dotted path file) := by
  refine outcome_of_cases (fun entries h _ => ?_) (fun _ _ hfit => absurd trivial hfit)
    fun hshape => ?_
  · exact ⟨_, h.reads.loadSupertypes dotted path,
      represents_congr (represents_tableEntries dotted _) (mem_sorted h.nodup)⟩
  · obtain ⟨v, complaints, hread, hparse, htells⟩ :=
      parse_of_not_shaped hregular hdigits hhalves hshape dotted path
    refine ⟨complaints, ?_, htells⟩
    rw [loadSupertypes, hread]
    exact hparse

/-- **Entries with an empty name are refused.** -/
theorem loadCoreIndex_of_not_named (h : Shaped file .coreIndex entries) (hnamed : ¬ entries.Named)
    (dotted : Bool) (path : String) :
    loadCoreIndex dotted path file = .error (.refused (.violation ⟨.text ("empty " ++
      if "" ∈ entries.map (·.1) then "type_id" else Schema.coreIndex.memberField), []⟩)) := by
  have hmem := mem_sorted h.nodup
  have hkeys : ∀ key, key ∈ entries.sorted.map (·.1) ↔ key ∈ entries.map (·.1) := by
    intro key
    simp only [List.mem_map, hmem]
  rw [h.reads.loadCoreIndex]
  by_cases hkey : "" ∈ entries.map (·.1)
  · rw [if_pos hkey, toTable_of_key (ascending_sorted entries) ((hkeys "").mpr hkey)]
    rfl
  · have hmember : ∃ e ∈ entries.sorted, "" ∈ e.2 := by
      refine Classical.byContradiction fun hnone => hnamed fun e he => ⟨?_, fun hin => ?_⟩
      · exact fun hempty => hkey (hempty ▸ List.mem_map_of_mem he)
      · exact hnone ⟨e, (hmem e).mpr he, hin⟩
    rw [if_neg hkey, toTable_of_member (fun hin => hkey ((hkeys "").mp hin)) hmember]
    rfl

/-- **What comes of loading the ancestors of the core system.**  Entries with an empty name are not
fit. -/
theorem loadCoreIndex_outcome (hregular : file.isRegular = true)
    (hdigits : ¬ file.Yields (.error .hugeInteger)) (hhalves : ¬ file.Yields (.error .loneHalf))
    (dotted : Bool) (path : String) :
    Outcome file .coreIndex Entries.Named (TypeTable.Describes · dotted ·)
      (loadCoreIndex dotted path file) := by
  refine outcome_of_cases (fun entries h hnamed => ?_)
    (fun entries h hnamed => loadCoreIndex_of_not_named h hnamed dotted path) fun hshape => ?_
  · exact Holds.loadCoreIndex ⟨h, fun e he => (hnamed e he).1, fun e he => (hnamed e he).2⟩
      dotted path
  · obtain ⟨v, complaints, hread, hparse, htells⟩ :=
      parse_of_not_shaped hregular hdigits hhalves hshape dotted path
    refine ⟨complaints, ?_, htells⟩
    rw [loadCoreIndex, hread]
    change parseCoreIndex dotted v = _
    rw [parseCoreIndex, hparse]
    rfl

/-- **Files that differ in the order of keys hold the same.** -/
theorem readPayload_reordered (h : file.Yields (.ok v)) (h' : file'.Yields (.ok v'))
    (hsame : Reordered v v') (path path' : String) :
    readPayload path file = readPayload path' file' := by
  have hcanonical := hsame.canonical_eq (tree_of_yields h) (tree_of_yields h')
  rw [readPayload_eq (isRegular_of_yields h) (readObject_of_yields h),
    readPayload_eq (isRegular_of_yields h') (readObject_of_yields h'), File.objectEntries,
    File.objectEntries, hcanonical]

/-- **What comes of loading a file.**  Supertypes are loaded from it exactly if it has the shape,
and the ancestors of the core system if moreover no name in it is empty, which is what else they are
refused for.  The table gives each name of an entry, in the form of type names, what the entries of
that name list.  A file that has not the shape is reported with one complaint for each place at
which it differs, in ascending order of the places.  Another file whose value is the same up to the
order of keys comes to the same.  Files in which an integer of too many digits or half a character
that stands alone is in the way are left out. -/
theorem load_outcome (hregular : file.isRegular = true)
    (hdigits : ¬ file.Yields (.error .hugeInteger)) (hhalves : ¬ file.Yields (.error .loneHalf))
    (dotted : Bool) (path : String) :
    Outcome file .supertypes (fun _ => True) (Represents · dotted ·)
      (loadSupertypes dotted path file) ∧
    Outcome file .coreIndex Entries.Named (TypeTable.Describes · dotted ·)
      (loadCoreIndex dotted path file) ∧
    ∀ file' path' v v', file.Yields (.ok v) → file'.Yields (.ok v') → Reordered v v' →
      loadSupertypes dotted path file = loadSupertypes dotted path' file' ∧
        loadCoreIndex dotted path file = loadCoreIndex dotted path' file' := by
  refine ⟨loadSupertypes_outcome hregular hdigits hhalves dotted path,
    loadCoreIndex_outcome hregular hdigits hhalves dotted path,
    fun file' path' v v' h h' hsame => ?_⟩
  have hpayload := readPayload_reordered h h' hsame path path'
  constructor
  · rw [loadSupertypes, loadSupertypes, hpayload]
  · rw [loadCoreIndex, loadCoreIndex, hpayload]

/-- Two names that become the same are united.  The ancestors differ from the shape at two places,
which are told in the order of the keys, in whichever order the document has them. -/
theorem load_outcome_united :
    let file : File := .regular
      ("\x7b\"ancestors\": \x7b\"b\": [\"c\", 1], \"a\": \x7b\x7d\x7d, " ++
        "\"direct_supertypes\": \x7b\"b.C\": [\"y\"], \"b/C\": [\"z\"]\x7d\x7d").toUTF8
    let file' : File := .regular
      ("\x7b\"direct_supertypes\": \x7b\"b/C\": [\"z\"], \"b.C\": [\"y\"]\x7d, " ++
        "\"ancestors\": \x7b\"a\": \x7b\x7d, \"b\": [\"c\", 1]\x7d\x7d").toUTF8
    let complaints : List Complaint := [⟨.notArray, [.name "ancestors", .name "a"]⟩,
      ⟨.notText, [.name "ancestors", .name "b", .index 1]⟩]
    (file.isRegular = true ∧ ¬ file.Yields (.error .hugeInteger) ∧
      ¬ file.Yields (.error .loneHalf)) ∧
      (∃ table, loadSupertypes true "f" file' = .ok table ∧
        Represents table true [("b.C", ["y"]), ("b/C", ["z"])]) ∧
      loadCoreIndex true "f" file' = .error (.unfit .coreIndex complaints) ∧
      Tells file .coreIndex complaints := by
  intro file file' complaints
  let ancestors : List (Value × Value) :=
    [(.text "b", .list [.text "c", .int 1]), (.text "a", .map [])]
  let entries : Entries := [("b.C", ["y"]), ("b/C", ["z"])]
  let fields : List (Value × Value) :=
    [(.text "ancestors", .map ancestors), (.text "direct_supertypes", entries.toValue)]
  let fields' : List (Value × Value) :=
    [(.text "direct_supertypes", Entries.toValue entries.reverse),
      (.text "ancestors", .map ancestors.reverse)]
  have hread : file.Yields (.ok (.map fields)) :=
    yields_of_read (by cbv)
  have hread' : file'.Yields (.ok (.map fields')) :=
    yields_of_read (by cbv)
  have hdigits : ¬ file.Yields (.error .hugeInteger) := fun h => by
    cases yields_unique hread h
  have hhalves : ¬ file.Yields (.error .loneHalf) := fun h => by
    cases yields_unique hread h
  have hsame : Reordered (.map fields) (.map fields') :=
    Json.reordered_of_canonical_eq (tree_of_yields hread) (tree_of_yields hread') (by cbv)
  obtain ⟨hsupertypes, hcore, hother⟩ :=
    load_outcome (show file.isRegular = true from rfl) hdigits hhalves true "f"
  obtain ⟨heqSupertypes, heqCore⟩ := hother file' "f" _ _ hread hread' hsame
  have hcomputed : loadCoreIndex true "f" file = .error (.unfit .coreIndex complaints) := by
    rw [loadCoreIndex, readPayload_eq rfl (readObject_of_yields hread)]
    cbv
  refine ⟨⟨rfl, hdigits, hhalves⟩, ?_, ?_, ?_⟩
  · have hshaped : Shaped file .supertypes entries := shaped_iff.mpr ⟨fields, hread, rfl⟩
    obtain ⟨table, htable⟩ := hsupertypes.accepts.mpr ⟨entries, hshaped, trivial⟩
    exact ⟨table, heqSupertypes ▸ htable, hsupertypes.tabulates table entries htable hshaped⟩
  · rw [← heqCore, hcomputed]
  · have hshape : ∀ entries, ¬ Shaped file .coreIndex entries := fun entries h => by
      obtain ⟨_, hread₀, hfield⟩ := shaped_iff.mp h
      cases yields_unique hread hread₀
      have hentry : (.text "a", .map []) ∈ ancestors := List.mem_cons_of_mem _ List.mem_cons_self
      have hancestors : Value.find? fields Schema.coreIndex.field = some (.map ancestors) := rfl
      exact not_offends hfield _ (.notArray hancestors hentry (by simp))
    obtain ⟨found, hfound, htells⟩ := hcore.complains hshape
    cases hcomputed.symm.trans hfound
    exact htells

end Document
end Ancestry
