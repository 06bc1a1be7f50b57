import Ancestry.Document.Load
import Ancestry.Proofs.Json.Tree

/-!
# What a document says

A document that has the shape gives names lists of names.  On the way to a table these are sorted,
checked, brought to the form of type names, united where their names become the same, and checked
for empty names.  None of this adds a supertype or loses one: the table has the types under whose
names, in the form of type names, the document has a list, and gives each the members of all its
lists (`TypeTable.Describes`).
-/

namespace Ancestry

namespace Document

/-- What the entries of a document are: names, each with a list of names. -/
abbrev Entries := List (String × List String)

/-- An entry as one of an object. -/
def entryValue (e : String × List String) : String × Value := (e.1, .list (e.2.map .text))

/-- The object with the given entries. -/
def Entries.toValue (entries : Entries) : Value := .map (Json.textEntries (entries.map entryValue))

/-- The document has a list for the type. -/
def Entries.Declares (entries : Entries) (dotted : Bool) (t : TypeName) : Prop :=
  ∃ e ∈ entries, typeName dotted e.1 = t

/-- A list of the document for the type has the member `s`. -/
def Entries.Lists (entries : Entries) (dotted : Bool) (t s : TypeName) : Prop :=
  ∃ e ∈ entries, typeName dotted e.1 = t ∧ ∃ name ∈ e.2, typeName dotted name = s

/-- The file holds a document of the shape, with the given entries. -/
def Shaped (file : File) (schema : Schema) (entries : Entries) : Prop :=
  ∃ bytes text fields, file = .regular bytes ∧ String.fromUTF8? bytes = some text ∧
    Json.read text = .ok (.map fields) ∧ Value.find? fields schema.field = some entries.toValue

/-- The file holds a document of the shape, with the given entries and no empty name. -/
structure Holds (file : File) (schema : Schema) (entries : Entries) : Prop where
  decodes : ∃ bytes text fields, file = .regular bytes ∧ String.fromUTF8? bytes = some text ∧
    Json.read text = .ok (.map fields) ∧ Value.find? fields schema.field = some entries.toValue
  key_ne : ∀ e ∈ entries, e.1 ≠ ""
  name_ne : ∀ e ∈ entries, "" ∉ e.2

end Document

/-- The table has the types that the entries declare, each with what they list for it. -/
structure TypeTable.Describes (table : TypeTable) (dotted : Bool) (entries : Document.Entries) :
    Prop where
  get?_ne_none : ∀ t, table.get? t ≠ none ↔ entries.Declares dotted t
  mem_getD : ∀ t s, s ∈ table.getD t ↔ entries.Lists dotted t s

namespace Document

open Json (textEntries textEntries_injective Tree IsScalar tree_map)

variable {entries : Entries} {dotted : Bool} {schema : Schema} {file : File}

/-! ## 1. From the file to the value -/

theorem map_fst_entryValue (entries : Entries) :
    (entries.map entryValue).map (·.1) = entries.map (·.1) := by
  rw [List.map_map]
  rfl

/-- The entries of an object of the shape are determined by the object. -/
theorem toValue_injective {entries' : Entries} (h : entries.toValue = entries'.toValue) :
    entries = entries' := by
  have hvalues := textEntries_injective (Value.map.inj h)
  refine List.map_injective_iff.mpr (fun e e' he => ?_) hvalues
  obtain ⟨hkey, hnames⟩ := Prod.mk.inj he
  exact Prod.ext hkey (List.map_injective_iff.mpr (fun _ _ => Value.text.inj)
    (Value.list.inj hnames))

theorem canonical_texts (names : List String) :
    Json.canonicalItems (names.map .text) = names.map .text := by
  induction names with
  | nil => rfl
  | cons name names ih => rw [List.map_cons, Json.canonicalItems, ih]; rfl

theorem canonical_entryValue (e : String × List String) :
    Json.canonical (entryValue e).2 = (entryValue e).2 := by
  rw [entryValue, Json.canonical, canonical_texts]

/-- The entries in ascending order of their names. -/
def Entries.sorted (entries : Entries) : Entries :=
  (entries.foldl (fun m e => m.insert e.1 e.2)
    (∅ : Std.ExtTreeMap String (List String) compare)).toList

theorem mem_sorted (h : (entries.map (·.1)).Nodup) (e : String × List String) :
    e ∈ entries.sorted ↔ e ∈ entries := mem_toList_foldl_insert h e

theorem ascending_sorted (entries : Entries) : Ascending (entries.sorted.map (·.1)) :=
  ascending_keys _

theorem canonical_toValue (h : (entries.map (·.1)).Nodup) :
    Json.canonical entries.toValue = entries.sorted.toValue := by
  have hsame : (entries.map ((fun e => (e.1, Json.canonical e.2)) ∘ entryValue)) =
      entries.map entryValue := by
    refine List.map_congr_left fun e _ => ?_
    rw [Function.comp_apply, canonical_entryValue]
  have hsorted : Json.sortEntries (entries.map entryValue) = entries.sorted.map entryValue := by
    refine Json.sortEntries_eq ?_ ?_ fun e => ?_
    · rwa [map_fst_entryValue]
    · rw [map_fst_entryValue]
      exact ascending_sorted entries
    · simp only [List.mem_map, mem_sorted h]
  rw [Entries.toValue, Json.canonical_map, List.map_map, hsame, hsorted, Entries.toValue]

theorem nodup_of_tree (h : Tree IsScalar entries.toValue) : (entries.map (·.1)).Nodup := by
  obtain ⟨es, hes, hnodup, _⟩ := tree_map h
  rwa [← textEntries_injective hes, map_fst_entryValue] at hnodup

/-- The file with a text that is read as an object of the shape. -/
theorem shaped_of_read {text : String} (fields : List (Value × Value))
    (hread : Json.read text = .ok (.map fields))
    (hfield : Value.find? fields schema.field = some entries.toValue) :
    Shaped (.regular text.toUTF8) schema entries :=
  ⟨text.toUTF8, text, fields, rfl, dif_pos text.isValidUTF8, hread, hfield⟩

theorem holds_of_read {text : String} (fields : List (Value × Value))
    (hread : Json.read text = .ok (.map fields))
    (hfield : Value.find? fields schema.field = some entries.toValue)
    (hkey : ∀ e ∈ entries, e.1 ≠ "") (hname : ∀ e ∈ entries, "" ∉ e.2) :
    Holds (.regular text.toUTF8) schema entries :=
  ⟨shaped_of_read fields hread hfield, hkey, hname⟩

/-- From the file an object is read that has the entries under its field, in ascending order. -/
structure Reads (file : File) (schema : Schema) (entries : Entries) : Prop where
  ascending : Ascending (entries.map (·.1))
  regular : file.isRegular = true
  fields : ∃ fields, file.readObject = .ok fields ∧
    Value.find? fields schema.field = some entries.toValue

/-- In the entries of a file no name comes twice, since the value that is read has no key twice. -/
theorem Shaped.nodup (h : Shaped file schema entries) : (entries.map (·.1)).Nodup := by
  obtain ⟨_, _, _, _, _, hread, hfield⟩ := h
  obtain ⟨es, rfl, hkeys, htrees⟩ := tree_map (Json.tree_of_read hread)
  exact nodup_of_tree (htrees _ ((Json.find?_textEntries hkeys).mp hfield))

/-- **What is read from the file** has the entries under its field, in ascending order. -/
theorem Shaped.reads (h : Shaped file schema entries) : Reads file schema entries.sorted := by
  have hnodup := h.nodup
  obtain ⟨bytes, text, fields, rfl, htext, hread, hfield⟩ := h
  obtain ⟨es, rfl, hkeys, htrees⟩ := tree_map (Json.tree_of_read hread)
  have hmem := (Json.find?_textEntries hkeys).mp hfield
  have hkeys' : ((es.map fun e => (e.1, Json.canonical e.2)).map (·.1)).Nodup := by
    rwa [Json.keys_canonical]
  refine ⟨ascending_sorted entries, rfl, _, ?_,
    (Json.find?_textEntries (Json.ascending_sortEntries _).nodup).mpr
      ((Json.mem_sortEntries hkeys' _).mpr (List.mem_map.mpr ⟨_, hmem, ?_⟩))⟩
  · simp only [File.readObject, htext, hread, File.objectEntries, Json.canonical_map]
  · rw [canonical_toValue hnodup]

/-! ## 2. From the value to the entries -/

theorem checkItems_texts (place : List Place) (names : List String) :
    ∀ n, checkItems place n (names.map .text) = ⟨names, []⟩ := by
  induction names with
  | nil => exact fun _ => rfl
  | cons name names ih =>
    intro n
    rw [List.map_cons, checkItems, ih]
    rfl

theorem putNames_of_notMem {key : String} (h : key ∉ entries.map (·.1)) (names : List String) :
    putNames entries key names = entries ++ [(key, names)] := by
  induction entries with
  | nil => rfl
  | cons e entries ih =>
    rw [List.map_cons, List.mem_cons, not_or] at h
    obtain ⟨key', names'⟩ := e
    rw [putNames, if_neg (Ne.symm h.1), ih h.2]
    rfl

/-- **Entries that are names with lists of names pass the check** and are given back as they are. -/
theorem checkEntries_entries (place : List Place) (h : (entries.map (·.1)).Nodup) :
    checkEntries place (textEntries (entries.map entryValue)) = ⟨entries, []⟩ := by
  induction entries using List.reverseRecOn with
  | nil => rfl
  | append_singleton entries e ih =>
    obtain ⟨hnodup, hnew⟩ := nodup_keys_concat.mp h
    rw [List.map_append, textEntries, List.map_append, ← textEntries, checkEntries,
      List.foldl_append, ← checkEntries, ih hnodup]
    simp [entryValue, checkText, checkArray, items?, checkItems_texts, putNames_of_notMem hnew]

theorem check_of_find? {fields : List (Value × Value)} (h : (entries.map (·.1)).Nodup)
    (hfield : Value.find? fields schema.field = some entries.toValue) :
    check schema (.map fields) = .ok entries := by
  simp only [check, hfield, Entries.toValue, checkEntries_entries _ h]
  rfl

/-! ## 3. From the entries to the table -/

/-- The form of type names of a name is empty only if the name is. -/
theorem typeName_ne_empty {name : String} (h : name ≠ "") : typeName dotted name ≠ "" := by
  cases dotted with
  | false => exact h
  | true =>
    intro he
    have hlist : (internalName name).toList = [] := by
      rw [show internalName name = "" from he]
      rfl
    rw [internalName, String.toList_ofList, List.map_eq_nil_iff] at hlist
    exact h (String.toList_inj.mp hlist)

variable {table : List (TypeName × TypeSet)} {key t s : TypeName} {names set : TypeSet}

theorem unite_of_notMem (h : key ∉ table.map (·.1)) :
    unite table key names = table ++ [(key, names)] := by
  induction table with
  | nil => rfl
  | cons e table ih =>
    rw [List.map_cons, List.mem_cons, not_or] at h
    obtain ⟨k, set⟩ := e
    rw [unite, if_neg (Ne.symm h.1), ih h.2]
    rfl

/-- What is united with a set that is there is added to it, and the others are as they were. -/
theorem exists_unite_of_mem (hnodup : (table.map (·.1)).Nodup) (h : key ∈ table.map (·.1)) :
    (unite table key names).map (·.1) = table.map (·.1) ∧ ∃ set, (key, set) ∈ table ∧
      ∀ e ∈ unite table key names, e ∈ table ∧ e.1 ≠ key ∨ e = (key, set ∪ names) := by
  induction table with
  | nil => exact absurd h List.not_mem_nil
  | cons e table ih =>
    obtain ⟨k, set⟩ := e
    rw [List.map_cons, List.nodup_cons] at hnodup
    by_cases hk : k = key
    · subst hk
      rw [unite, if_pos rfl]
      refine ⟨rfl, set, List.mem_cons_self, fun e he => ?_⟩
      rcases List.mem_cons.mp he with rfl | he
      · exact .inr rfl
      · exact .inl ⟨List.mem_cons_of_mem _ he, fun heq =>
          hnodup.1 (heq ▸ List.mem_map_of_mem (f := (·.1)) he)⟩
    · have hmem : key ∈ table.map (·.1) := (List.mem_cons.mp h).resolve_left (Ne.symm hk)
      obtain ⟨hkeys, set', hset', hall⟩ := ih hnodup.2 hmem
      rw [unite, if_neg hk]
      refine ⟨by rw [List.map_cons, hkeys, List.map_cons], set', List.mem_cons_of_mem _ hset',
        fun e he => ?_⟩
      rcases List.mem_cons.mp he with rfl | he
      · exact .inl ⟨List.mem_cons_self, hk⟩
      · exact (hall e he).imp_left (And.imp_left (List.mem_cons_of_mem _))

/-- The table entries are what the entries of the document say. -/
structure Represents (table : List (TypeName × TypeSet)) (dotted : Bool) (entries : Entries) :
    Prop where
  nodup : (table.map (·.1)).Nodup
  mem_keys : ∀ t, t ∈ table.map (·.1) ↔ entries.Declares dotted t
  mem_set : ∀ t set, (t, set) ∈ table → ∀ s, s ∈ set ↔ entries.Lists dotted t s

theorem declares_concat {e : String × List String} :
    Entries.Declares (entries ++ [e]) dotted t ↔
      entries.Declares dotted t ∨ t = typeName dotted e.1 := by
  simp [Entries.Declares, or_and_right, exists_or, eq_comm]

theorem lists_concat {e : String × List String} :
    Entries.Lists (entries ++ [e]) dotted t s ↔ entries.Lists dotted t s ∨
      t = typeName dotted e.1 ∧ s ∈ TypeSet.ofNames (e.2.map (typeName dotted)) := by
  simp [Entries.Lists, or_and_right, exists_or, eq_comm]

theorem Entries.Lists.declares (h : entries.Lists dotted t s) : entries.Declares dotted t := by
  obtain ⟨e, he, ht, _⟩ := h
  exact ⟨e, he, ht⟩

/-- **One more entry.** -/
theorem Represents.unite (h : Represents table dotted entries) (e : String × List String) :
    Represents
      (unite table (typeName dotted e.1) (.ofNames (e.2.map (typeName dotted)))) dotted
      (entries ++ [e]) := by
  by_cases hk : typeName dotted e.1 ∈ table.map (·.1)
  · obtain ⟨hkeys, before, hbefore, hall⟩ := exists_unite_of_mem h.nodup hk
    refine ⟨hkeys ▸ h.nodup, fun t => ?_, fun t set hmem s => ?_⟩
    · rw [hkeys, h.mem_keys, declares_concat]
      exact ⟨.inl, Or.rec id fun ht => ht ▸ (h.mem_keys _).mp hk⟩
    · rw [lists_concat]
      rcases hall _ hmem with ⟨hmem, hne⟩ | heq
      · rw [h.mem_set t set hmem]
        exact (or_iff_left fun hs => hne hs.1).symm
      · obtain ⟨rfl, rfl⟩ := Prod.mk.inj heq
        rw [Std.ExtTreeSet.mem_union_iff, h.mem_set _ _ hbefore, and_iff_right rfl]
  · rw [unite_of_notMem hk]
    refine ⟨nodup_keys_concat.mpr ⟨h.nodup, hk⟩, fun t => ?_, fun t set hmem s => ?_⟩
    · rw [List.map_append, List.mem_append, h.mem_keys, declares_concat]
      simp
    · rw [lists_concat]
      rcases List.mem_append.mp hmem with hmem | hmem
      · rw [h.mem_set t set hmem]
        refine (or_iff_left fun hs => hk ?_).symm
        exact hs.1 ▸ List.mem_map_of_mem (f := (·.1)) hmem
      · obtain ⟨rfl, rfl⟩ := Prod.mk.inj (List.mem_singleton.mp hmem)
        rw [and_iff_right rfl]
        exact (or_iff_right fun hs => hk ((h.mem_keys _).mpr hs.declares)).symm

/-- **The entries of the table say what the document says.** -/
theorem represents_tableEntries (dotted : Bool) (entries : Entries) :
    Represents (tableEntries dotted entries) dotted entries := by
  induction entries using List.reverseRecOn with
  | nil => exact ⟨List.nodup_nil, by simp [tableEntries, Entries.Declares], by simp [tableEntries]⟩
  | append_singleton entries e ih =>
    rw [tableEntries, List.foldl_append, ← tableEntries]
    exact ih.unite e

theorem mapM_eq_ok {ε α : Type} {f : α → Except ε α} {xs : List α} (h : ∀ x ∈ xs, f x = .ok x) :
    xs.mapM f = .ok xs := by
  induction xs with
  | nil => rfl
  | cons x xs ih =>
    rw [List.mapM_cons, h x List.mem_cons_self, ih fun y hy => h y (List.mem_cons_of_mem x hy)]
    rfl

theorem nameOfValue_text {field : String} (h : t ≠ "") :
    TypeTable.nameOfValue field (.text t) = .ok t := by
  have hne : ¬ t.isEmpty = true := by
    rwa [String.isEmpty_iff]
  rw [TypeTable.nameOfValue, if_neg hne]

theorem get?_ofEntries (h : (table.map (·.1)).Nodup) :
    (TypeTable.ofEntries table).get? t = some set ↔ (t, set) ∈ table := by
  rw [TypeTable.get?, TypeTable.ofEntries, getElem?_foldl_insert h]
  simp

/-- An entry of a table, if no name in it is empty. -/
def namedEntry (schema : Schema) (e : TypeName × TypeSet) : Except Fault (TypeName × TypeSet) := do
  let name ← TypeTable.nameOfValue "type_id" (.text e.1)
  let _ ← e.2.toList.mapM fun t => TypeTable.nameOfValue schema.memberField (.text t)
  return (name, e.2)

theorem toTable_eq (schema : Schema) (table : List (TypeName × TypeSet)) :
    toTable schema table = (table.mapM (namedEntry schema)).map .ofEntries := by
  change (table.mapM (namedEntry schema) >>= fun es => pure (TypeTable.ofEntries es)) = _
  cases table.mapM (namedEntry schema) <;> rfl

theorem namedEntry_of_ne {e : TypeName × TypeSet} (hkey : e.1 ≠ "") (hmembers : "" ∉ e.2) :
    namedEntry schema e = .ok e := by
  have hnames : e.2.toList.mapM (fun t => TypeTable.nameOfValue schema.memberField (.text t)) =
      .ok e.2.toList := by
    refine mapM_eq_ok fun s hs => nameOfValue_text ?_
    rintro rfl
    exact hmembers (Std.ExtTreeSet.mem_toList.mp hs)
  rw [namedEntry, nameOfValue_text hkey, hnames]
  rfl

/-- Where no name is empty, there is a table, and it says what the document says. -/
theorem Represents.toTable (h : Represents table dotted entries) (schema : Schema)
    (hkey : ∀ e ∈ entries, e.1 ≠ "") (hname : ∀ e ∈ entries, "" ∉ e.2) :
    ∃ made, Document.toTable schema table = .ok made ∧ made.Describes dotted entries := by
  have hentry : ∀ e ∈ table, namedEntry schema e = .ok e := by
    refine fun e he => namedEntry_of_ne ?_ fun hmem => ?_
    · obtain ⟨e', he', ht⟩ := (h.mem_keys e.1).mp (List.mem_map_of_mem he)
      exact ht ▸ typeName_ne_empty (hkey e' he')
    · obtain ⟨e', he', _, name, hin, heq⟩ := (h.mem_set e.1 e.2 he "").mp hmem
      exact typeName_ne_empty (fun hn => hname e' he' (hn ▸ hin)) heq
  refine ⟨.ofEntries table, ?_, fun t => ?_, fun t s => ?_⟩
  · rw [toTable_eq, mapM_eq_ok hentry]
    rfl
  · rw [← h.mem_keys, Option.ne_none_iff_exists']
    simp only [get?_ofEntries h.nodup, List.mem_map, Prod.exists, exists_and_right, exists_eq_right]
  · cases hset : (TypeTable.ofEntries table).get? t with
    | none =>
      have hkeys : t ∉ table.map (·.1) := fun hmem => by
        obtain ⟨e, he, rfl⟩ := List.mem_map.mp hmem
        rw [(get?_ofEntries h.nodup).mpr he] at hset
        cases hset
      rw [TypeTable.getD, hset, Option.getD_none]
      refine iff_of_false Std.ExtTreeSet.not_mem_empty fun hs => ?_
      exact hkeys ((h.mem_keys t).mpr hs.declares)
    | some set =>
      rw [TypeTable.getD, hset, Option.getD_some]
      exact h.mem_set t set ((get?_ofEntries h.nodup).mp hset) s

/-! ## 4. Loading -/

/-- It does not matter in which order the entries stand. -/
theorem describes_congr {entries' : Entries} {made : TypeTable}
    (h : made.Describes dotted entries) (hmem : ∀ e, e ∈ entries ↔ e ∈ entries') :
    made.Describes dotted entries' := by
  refine ⟨fun t => (h.get?_ne_none t).trans ?_, fun t s => (h.mem_getD t s).trans ?_⟩
  · exact exists_congr fun e => and_congr_left fun _ => hmem e
  · exact exists_congr fun e => and_congr_left fun _ => hmem e

theorem readPayload_eq {fields : List (Value × Value)} (hregular : file.isRegular = true)
    (hread : file.readObject = .ok fields) (path : String) :
    readPayload path file = .ok (.map fields) := by
  simp only [readPayload, hregular, if_true, hread]

/-- What is read is parsed. -/
theorem Reads.parses (h : Reads file schema entries) (dotted : Bool) (path : String) :
    ∃ v, readPayload path file = .ok v ∧
      parse schema dotted v = .ok (tableEntries dotted entries) := by
  obtain ⟨fields, hread, hfield⟩ := h.fields
  refine ⟨_, readPayload_eq h.regular hread path, ?_⟩
  rw [parse, check_of_find? h.ascending.nodup hfield]

/-- The supertypes are the united entries, and nothing more is checked. -/
theorem Reads.loadSupertypes (h : Reads file .supertypes entries) (dotted : Bool) (path : String) :
    Document.loadSupertypes dotted path file = .ok (tableEntries dotted entries) := by
  obtain ⟨v, hread, hparse⟩ := h.parses dotted path
  rw [Document.loadSupertypes, hread]
  exact hparse

/-- The ancestors of the core system are checked for empty names besides. -/
theorem Reads.loadCoreIndex (h : Reads file .coreIndex entries) (dotted : Bool) (path : String) :
    Document.loadCoreIndex dotted path file =
      (toTable .coreIndex (tableEntries dotted entries)).mapError .refused := by
  obtain ⟨v, hread, hparse⟩ := h.parses dotted path
  rw [Document.loadCoreIndex, hread]
  change parseCoreIndex dotted v = _
  rw [parseCoreIndex, hparse]
  rfl

/-- Where no name is empty, what is read makes a table that says what the document says. -/
theorem Holds.exists_table (h : Holds file schema entries) (dotted : Bool) :
    Reads file schema entries.sorted ∧ ∃ made,
      toTable schema (tableEntries dotted entries.sorted) = .ok made ∧
        made.Describes dotted entries := by
  have hshaped : Shaped file schema entries := h.decodes
  have hmem := mem_sorted hshaped.nodup
  obtain ⟨made, hmade, hdescribes⟩ := (represents_tableEntries dotted entries.sorted).toTable schema
    (fun e he => h.key_ne e ((hmem e).mp he)) (fun e he => h.name_ne e ((hmem e).mp he))
  exact ⟨hshaped.reads, made, hmade, describes_congr hdescribes hmem⟩

theorem Holds.loadSupertypes (h : Holds file .supertypes entries) (dotted : Bool) (path : String) :
    ∃ table made, Document.loadSupertypes dotted path file = .ok table ∧
      toTable .supertypes table = .ok made ∧ made.Describes dotted entries := by
  obtain ⟨hreads, made, hmade, hdescribes⟩ := h.exists_table dotted
  exact ⟨_, made, hreads.loadSupertypes dotted path, hmade, hdescribes⟩

theorem Holds.loadCoreIndex (h : Holds file .coreIndex entries) (dotted : Bool) (path : String) :
    ∃ made, Document.loadCoreIndex dotted path file = .ok made ∧ made.Describes dotted entries := by
  obtain ⟨hreads, made, hmade, hdescribes⟩ := h.exists_table dotted
  refine ⟨made, ?_, hdescribes⟩
  rw [hreads.loadCoreIndex, hmade]
  rfl

end Document
end Ancestry
