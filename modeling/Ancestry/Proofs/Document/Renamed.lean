import Ancestry.Proofs.Document.Refused

/-!
# Renamed documents

A document may write its names with dots, and some of them with dots and others in internal form, so
that two entries may mean the same type.  `Renames` says that another document has the same entries
with their names in internal form, where entries for the same type are one entry.  To read the first
one with dotted names is to read the second one, in whichever way (`Renames.toTable_eq`): the same
table is made, or the same name is refused.
-/

namespace Ancestry

/-- A table is determined by what it says. -/
theorem TypeTable.Describes.unique {made made' : TypeTable} {dotted dotted' : Bool}
    {entries entries' : Document.Entries} (h : made.Describes dotted entries)
    (h' : made'.Describes dotted' entries')
    (hdeclares : ∀ t, entries'.Declares dotted' t ↔ entries.Declares dotted t)
    (hlists : ∀ t s, entries'.Lists dotted' t s ↔ entries.Lists dotted t s) : made' = made := by
  have hnone : ∀ t, made'.get? t ≠ none ↔ made.get? t ≠ none := by
    intro t
    rw [h'.get?_ne_none, h.get?_ne_none, hdeclares]
  have hset : ∀ t, made'.getD t = made.getD t := by
    intro t
    refine Std.ExtTreeSet.ext_mem fun s => ?_
    rw [h'.mem_getD, h.mem_getD, hlists]
  have hget : ∀ t, made'.get? t = made.get? t := by
    intro t
    have hn := hnone t
    have hs := hset t
    unfold TypeTable.getD at hs
    cases hmade' : made'.get? t with
    | none =>
      cases hmade : made.get? t with
      | none => rfl
      | some set =>
        rw [hmade', hmade] at hn
        exact absurd rfl (hn.mpr (by simp))
    | some set' =>
      cases hmade : made.get? t with
      | none =>
        rw [hmade', hmade] at hn
        exact absurd rfl (hn.mp (by simp))
      | some set =>
        rw [hmade', hmade] at hs
        exact congrArg some hs
  obtain ⟨entries⟩ := made
  obtain ⟨entries'⟩ := made'
  exact congrArg TypeTable.mk (Std.ExtTreeMap.ext_getElem? hget)

namespace Document

variable {entries entries' : Entries} {dotted : Bool} {schema : Schema} {file file' : File}
  {t s : TypeName}

/-! ## 1. What renaming is -/

/-- The second document has the entries of the first one with all names in internal form; where
names become the same, their lists are united. -/
structure Renames (entries entries' : Entries) : Prop where
  declares : ∀ t, entries'.Declares false t ↔ entries.Declares true t
  lists : ∀ t s, entries'.Lists false t s ↔ entries.Lists true t s

/-- The entries with all names in internal form, each name once and with each of its members
once. -/
def Entries.renamed (entries : Entries) : Entries :=
  (tableEntries true entries).map fun e => (e.1, e.2.toList)

theorem renames_renamed (entries : Entries) : Renames entries entries.renamed := by
  have h := represents_tableEntries true entries
  constructor
  · intro t
    rw [← h.mem_keys]
    simp [Entries.Declares, Entries.renamed, typeName]
  · intro t s
    constructor
    · rintro ⟨_, he, rfl, name, hname, rfl⟩
      obtain ⟨e, hmem, rfl⟩ := List.mem_map.mp he
      exact (h.mem_set e.1 e.2 hmem name).mp (Std.ExtTreeSet.mem_toList.mp hname)
    · intro hlists
      obtain ⟨e, he, rfl⟩ := List.mem_map.mp ((h.mem_keys t).mpr hlists.declares)
      refine ⟨_, List.mem_map.mpr ⟨e, he, rfl⟩, rfl, s, ?_, rfl⟩
      exact Std.ExtTreeSet.mem_toList.mpr ((h.mem_set e.1 e.2 he s).mpr hlists)

example : Entries.renamed [("a.B", ["c.D"]), ("a/B", ["e"])] = [("a/B", ["c/D", "e"])] := by
  decide +kernel

/-! ## 2. Two readings of a renamed document -/

/-- A name in internal form is read as it is. -/
theorem typeName_internalName (dotted : Bool) (name : String) :
    typeName dotted (internalName name) = internalName name := by
  cases dotted with
  | true => exact internalName_internalName name
  | false => rfl

namespace Renames

theorem typeName_key (h : Renames entries entries') (dotted : Bool) {e : String × List String}
    (he : e ∈ entries') : typeName dotted e.1 = e.1 := by
  obtain ⟨e', _, heq⟩ := (h.declares e.1).mp ⟨e, he, rfl⟩
  rw [← heq]
  exact typeName_internalName dotted e'.1

theorem typeName_member (h : Renames entries entries') (dotted : Bool) {e : String × List String}
    (he : e ∈ entries') {name : String} (hname : name ∈ e.2) : typeName dotted name = name := by
  obtain ⟨_, _, _, name', _, heq⟩ := (h.lists e.1 name).mp ⟨e, he, rfl, name, hname, rfl⟩
  rw [← heq]
  exact typeName_internalName dotted name'

/-- Read with dots or without, the renamed document declares the same types. -/
theorem declares_iff (h : Renames entries entries') (dotted : Bool) (t : TypeName) :
    entries'.Declares dotted t ↔ entries.Declares true t := by
  rw [← h.declares]
  refine exists_congr fun e => and_congr_right fun he => ?_
  rw [h.typeName_key dotted he]
  rfl

/-- Read with dots or without, the renamed document lists the same members. -/
theorem lists_iff (h : Renames entries entries') (dotted : Bool) (t s : TypeName) :
    entries'.Lists dotted t s ↔ entries.Lists true t s := by
  rw [← h.lists]
  refine exists_congr fun e => and_congr_right fun he => and_congr ?_ ?_
  · rw [h.typeName_key dotted he]
    rfl
  · refine exists_congr fun name => and_congr_right fun hname => ?_
    rw [h.typeName_member dotted he hname]
    rfl

/-! ## 3. The same table -/

/-- Both documents have an entry for the empty name or none has. -/
theorem mem_keys_iff (h : Renames entries entries') :
    "" ∈ entries'.map (·.1) ↔ "" ∈ entries.map (·.1) := by
  have hkeys : ∀ (dotted : Bool) (es : Entries), "" ∈ es.map (·.1) ↔ es.Declares dotted "" := by
    intro dotted es
    rw [List.mem_map]
    exact exists_congr fun e => and_congr_right fun _ => typeName_eq_empty.symm
  rw [hkeys false, hkeys true, h.declares]

/-- Both documents have an empty member or none has. -/
theorem exists_member_iff (h : Renames entries entries') :
    (∃ e ∈ entries', "" ∈ e.2) ↔ ∃ e ∈ entries, "" ∈ e.2 := by
  have hmembers : ∀ (dotted : Bool) (es : Entries),
      (∃ e ∈ es, "" ∈ e.2) ↔ ∃ t, es.Lists dotted t "" := by
    intro dotted es
    constructor
    · rintro ⟨e, he, hempty⟩
      exact ⟨_, e, he, rfl, "", hempty, typeName_eq_empty.mpr rfl⟩
    · rintro ⟨_, e, he, _, name, hname, heq⟩
      exact ⟨e, he, typeName_eq_empty.mp heq ▸ hname⟩
  rw [hmembers false, hmembers true]
  exact exists_congr fun t => h.lists t ""

/-- **The table of the renamed document is that of the document**, or the same name is refused. -/
theorem toTable_eq (h : Renames entries entries') (hentries : Ascending (entries.map (·.1)))
    (hentries' : Ascending (entries'.map (·.1))) (schema : Schema) (dotted : Bool) :
    toTable schema (tableEntries dotted entries') = toTable schema (tableEntries true entries) := by
  by_cases hkey : "" ∈ entries.map (·.1)
  · rw [toTable_of_key hentries hkey, toTable_of_key hentries' (h.mem_keys_iff.mpr hkey)]
  have hkey' : "" ∉ entries'.map (·.1) := mt h.mem_keys_iff.mp hkey
  by_cases hmember : ∃ e ∈ entries, "" ∈ e.2
  · rw [toTable_of_member hkey hmember, toTable_of_member hkey' (h.exists_member_iff.mpr hmember)]
  have hmember' : ¬ ∃ e ∈ entries', "" ∈ e.2 := mt h.exists_member_iff.mp hmember
  have hnames : ∀ {es : Entries}, "" ∉ es.map (·.1) → (¬ ∃ e ∈ es, "" ∈ e.2) →
      (∀ e ∈ es, e.1 ≠ "") ∧ ∀ e ∈ es, "" ∉ e.2 := by
    intro es hk hm
    exact ⟨fun e he heq => hk (List.mem_map.mpr ⟨e, he, heq⟩), fun e he hin => hm ⟨e, he, hin⟩⟩
  obtain ⟨hk, hm⟩ := hnames hkey hmember
  obtain ⟨hk', hm'⟩ := hnames hkey' hmember'
  obtain ⟨made, hmade, hsays⟩ := (represents_tableEntries true entries).toTable schema hk hm
  obtain ⟨made', hmade', hsays'⟩ := (represents_tableEntries dotted entries').toTable schema hk' hm'
  rw [hmade, hmade', hsays.unique hsays' (h.declares_iff dotted) (h.lists_iff dotted)]

/-- The order of the entries does not matter. -/
theorem sorted (h : Renames entries entries') (hentries : (entries.map (·.1)).Nodup)
    (hentries' : (entries'.map (·.1)).Nodup) : Renames entries.sorted entries'.sorted := by
  have hmem := mem_sorted hentries
  have hmem' := mem_sorted hentries'
  constructor
  · intro t
    refine Iff.trans ?_ ((h.declares t).trans ?_)
    · exact exists_congr fun e => and_congr_left fun _ => hmem' e
    · exact exists_congr fun e => and_congr_left fun _ => (hmem e).symm
  · intro t s
    refine Iff.trans ?_ ((h.lists t s).trans ?_)
    · exact exists_congr fun e => and_congr_left fun _ => hmem' e
    · exact exists_congr fun e => and_congr_left fun _ => (hmem e).symm

end Renames

/-- What is read from a file with a document and from one with the renamed document makes the same
table. -/
theorem Shaped.renames (h : Shaped file schema entries) (h' : Shaped file' schema entries')
    (hrenames : Renames entries entries') :
    ∃ es es', Reads file schema es ∧ Reads file' schema es' ∧ ∀ dotted,
      toTable schema (tableEntries dotted es') = toTable schema (tableEntries true es) := by
  have hsorted := hrenames.sorted h.nodup h'.nodup
  exact ⟨_, _, h.reads, h'.reads, fun dotted =>
    hsorted.toTable_eq h.reads.ascending h'.reads.ascending schema dotted⟩

end Document
end Ancestry
