import Mathlib.Data.List.Forall2
import Ancestry.Proofs.Json.Recognized
import Ancestry.Proofs.Json.Scalars

/-!
# What is written is read back

The value of a document is written (`Tree.exists_write`).  Where it has no number with a fraction in
it and no integer of too many digits, what is written of it follows the grammar, and since the
reader follows the grammar too, it is a document that holds the value (`Plain.read_write`).  The
induction is on the value, and the parts between two brackets are gone through in a second one, part
by part.
-/

namespace Ancestry.Json

open Text (maxDigits)

variable {level : Nat}

/-! ## 1. Lists and objects -/

theorem blank_newLine (level : Nat) : Blank (newLine level) := by
  intro c hc
  rcases List.mem_cons.mp hc with rfl | hc
  · rfl
  · rw [List.eq_of_mem_replicate hc]
    rfl

/-- What stands between two brackets, from the first part on. -/
def inner (level : Nat) (part : List Char) (parts : List (List Char)) : List Char :=
  part ++ (parts.flatMap (fun p => ',' :: newLine (level + 1) ++ p) ++ newLine level)

/-- Parts in brackets stand each on a line of its own. -/
theorem bracketed_cons (first last : Char) (level : Nat) (part : List Char)
    (parts : List (List Char)) : bracketed first last level (part :: parts) =
      first :: (newLine (level + 1) ++ (inner level part parts ++ [last])) := by
  simp [bracketed, inner]

theorem inner_cons (level : Nat) (part part' : List Char) (parts : List (List Char)) :
    inner level part (part' :: parts) =
      part ++ ([] ++ ',' :: (newLine (level + 1) ++ inner level part' parts)) := by
  simp [inner]

/-- The characters are a term that stands for the value. -/
def SpellsValue (v : Value) (cs : List Char) : Prop :=
  ∃ term, Spells (.value term) cs ∧ term.value? = some v

theorem items?_cons {term : Term} {terms : List Term} {x : Value} {xs : List Value}
    (hx : term.value? = some x) (hxs : Term.items? terms = some xs) :
    Term.items? (term :: terms) = some (x :: xs) := by
  rw [Term.items?, hx, hxs]
  rfl

/-- The parts of a list, when each is written as its item, are written as the items of the
grammar. -/
theorem spells_items {xs : List Value} {parts : List (List Char)}
    (h : List.Forall₂ SpellsValue xs parts) : ∀ {x : Value} {part : List Char}, SpellsValue x part →
      ∃ terms, Spells (.items terms) (inner level part parts) ∧
        Term.items? terms = some (x :: xs) := by
  induction h with
  | nil =>
    rintro x part ⟨term, hpart, hx⟩
    exact ⟨[term], .lastItem hpart (blank_newLine level), items?_cons hx rfl⟩
  | cons hpart' _ ih =>
    rintro x part ⟨term, hpart, hx⟩
    obtain ⟨terms, hparts, hxs⟩ := ih hpart'
    rw [inner_cons]
    exact ⟨term :: terms, .item hpart blank_nil (blank_newLine _) hparts, items?_cons hx hxs⟩

/-- A list is written as the grammar says, if its items are. -/
theorem spells_list {xs : List Value} {parts : List (List Char)}
    (h : List.Forall₂ SpellsValue xs parts) :
    SpellsValue (.list xs) (bracketed '[' ']' level parts) := by
  cases h with
  | nil => exact ⟨.list [], .noItems blank_nil, rfl⟩
  | cons hpart hparts =>
    obtain ⟨terms, hitems, hxs⟩ := spells_items hparts hpart
    rw [bracketed_cons]
    exact ⟨.list terms, .list (blank_newLine _) hitems, by rw [Term.value?, hxs]; rfl⟩

/-- The characters are an entry of an object, with a blank after the colon. -/
def SpellsEntry (e : String × Value) (cs : List Char) : Prop :=
  ∃ ds, cs = writeText e.1 ++ [':', ' '] ++ ds ∧ SpellsValue e.2 ds

/-- A key has its colon right after it, and a blank before the value. -/
theorem spellsKey_writeText (key : String) :
    SpellsKey (unitsOfText key) (writeText key ++ [':', ' ']) :=
  ⟨_, [], [' '], spellsText_writeText key, blank_nil, by simp [Blank, isSpace], rfl⟩

theorem entries?_cons {term : Term} {terms : List (List Nat × Term)} {e : String × Value}
    {es : List (String × Value)} (he : term.value? = some e.2)
    (hes : Term.entries? terms = some (textEntries es)) :
    Term.entries? ((unitsOfText e.1, term) :: terms) = some (textEntries (e :: es)) := by
  rw [Term.entries?, textOfUnits?_unitsOfText, he, hes]
  rfl

/-- In the same way the parts of an object are written as its entries. -/
theorem spells_entries {es : List (String × Value)} {parts : List (List Char)}
    (h : List.Forall₂ SpellsEntry es parts) : ∀ {e : String × Value} {part : List Char},
      SpellsEntry e part → ∃ terms, Spells (.entries terms) (inner level part parts) ∧
        Term.entries? terms = some (textEntries (e :: es)) := by
  induction h with
  | nil =>
    rintro e part ⟨ds, rfl, term, hds, he⟩
    have hspells := Spells.lastEntry (spellsKey_writeText e.1) hds (blank_newLine level)
    exact ⟨[(unitsOfText e.1, term)], by simpa [inner] using hspells, entries?_cons he rfl⟩
  | cons hpart' _ ih =>
    rintro e part ⟨ds, rfl, term, hds, he⟩
    obtain ⟨terms, hparts, hes⟩ := ih hpart'
    rw [inner_cons, List.append_assoc]
    exact ⟨(unitsOfText e.1, term) :: terms,
      .entry (spellsKey_writeText e.1) hds blank_nil (blank_newLine _) hparts, entries?_cons he hes⟩

/-- An object is written as the grammar says, if its entries are. -/
theorem spells_map {es : List (String × Value)} {parts : List (List Char)}
    (hkeys : (es.map (·.1)).Nodup) (h : List.Forall₂ SpellsEntry es parts) :
    SpellsValue (.map (textEntries es)) (bracketed '\x7b' '\x7d' level parts) := by
  cases h with
  | nil => exact ⟨.map [], .noEntries blank_nil, rfl⟩
  | cons hpart hparts =>
    obtain ⟨terms, hentries, hes⟩ := spells_entries hparts hpart
    rw [bracketed_cons, ← ofPairs_of_nodup hkeys]
    exact ⟨.map terms, .map (blank_newLine _) hentries, by rw [Term.value?, hes]; rfl⟩

/-! ## 2. Writing -/

section
variable {P : Value → List Char → Prop}

/-- The items of a list are written, if each of them is. -/
theorem exists_writeItems {xs : List Value}
    (h : ∀ x ∈ xs, ∃ cs, writeValue level x = .ok cs ∧ P x cs) :
    ∃ parts, writeItems level xs = .ok parts ∧ List.Forall₂ P xs parts := by
  induction xs with
  | nil => exact ⟨[], rfl, .nil⟩
  | cons x xs ih =>
    obtain ⟨cs, hwrite, hcs⟩ := h x List.mem_cons_self
    obtain ⟨parts, hparts, hall⟩ := ih fun y hy => h y (List.mem_cons_of_mem x hy)
    refine ⟨cs :: parts, ?_, .cons hcs hall⟩
    rw [writeItems, hwrite, hparts]
    rfl

/-- The entries of a map are written, if their values are. -/
theorem exists_writeEntries {es : List (String × Value)}
    (h : ∀ e ∈ es, ∃ cs, writeValue level e.2 = .ok cs ∧ P e.2 cs) :
    ∃ parts, writeEntries level (textEntries es) = .ok parts ∧
      List.Forall₂ (fun e cs => ∃ ds, cs = writeText e.1 ++ [':', ' '] ++ ds ∧ P e.2 ds)
        es parts := by
  induction es with
  | nil => exact ⟨[], rfl, .nil⟩
  | cons e es ih =>
    obtain ⟨cs, hwrite, hcs⟩ := h e List.mem_cons_self
    obtain ⟨parts, hparts, hall⟩ := ih fun y hy => h y (List.mem_cons_of_mem e hy)
    refine ⟨(writeText e.1 ++ [':', ' '] ++ cs) :: parts, ?_, .cons ⟨cs, rfl, hcs⟩ hall⟩
    rw [textEntries, List.map_cons, writeEntries, writeKey, hwrite, ← textEntries, hparts]
    rfl

end

/-- **The value of a document is written**, wherever it stands. -/
theorem Tree.exists_writeValue {v : Value} (h : Tree IsScalar v) :
    ∀ level, ∃ cs, writeValue level v = .ok cs := by
  induction h with
  | @leaf v h =>
    intro level
    cases v with
    | null | bool | int | float | text => exact ⟨_, rfl⟩
    | _ => exact absurd h not_false
  | list _ ih =>
    intro level
    obtain ⟨parts, hparts, _⟩ := exists_writeItems (P := fun _ _ => True) fun x hx =>
      (ih x hx (level + 1)).imp fun _ hcs => ⟨hcs, trivial⟩
    rw [writeValue, hparts]
    exact ⟨_, rfl⟩
  | map _ _ ih =>
    intro level
    obtain ⟨parts, hparts, _⟩ := exists_writeEntries (P := fun _ _ => True) fun e he =>
      (ih e he (level + 1)).imp fun _ hcs => ⟨hcs, trivial⟩
    rw [writeValue, hparts]
    exact ⟨_, rfl⟩

theorem Tree.exists_write {v : Value} (h : Tree IsScalar v) : ∃ text, write v = .ok text := by
  obtain ⟨cs, hwrite⟩ := h.exists_writeValue 0
  rw [write, hwrite]
  exact ⟨_, rfl⟩

/-! ## 3. Plain values -/

/-- The values without parts that are read back as they were written: an integer of too many digits
is not read, and numbers with a fraction are left out. -/
def IsPlain : Value → Prop
  | .null => True
  | .bool _ => True
  | .int n => (Nat.toDigits 10 n.natAbs).length ≤ maxDigits
  | .text _ => True
  | _ => False

/-- The values that are read back as they were written. -/
abbrev Plain : Value → Prop := Tree IsPlain

/-- A value without parts is written as the grammar says. -/
theorem exists_writeScalar {v : Value} (h : IsPlain v) (level : Nat) :
    ∃ cs, writeValue level v = .ok cs ∧ SpellsValue v cs := by
  cases v with
  | null => exact ⟨_, rfl, .null, .word (by simp [words]), rfl⟩
  | bool b => exact ⟨_, rfl, .bool b, spells_bool b, rfl⟩
  | int n => exact ⟨_, rfl, .int n, spells_int h, rfl⟩
  | text s =>
    refine ⟨_, rfl, .text (unitsOfText s), .text (spellsText_writeText s), ?_⟩
    rw [Term.value?, textOfUnits?_unitsOfText]
    rfl
  | _ => exact absurd h not_false

/-- **A plain value is written as the grammar says**, wherever it stands in a document. -/
theorem Plain.exists_writeValue {v : Value} (h : Plain v) :
    ∀ level, ∃ cs, writeValue level v = .ok cs ∧ SpellsValue v cs := by
  induction h with
  | leaf h => exact exists_writeScalar h
  | list _ ih =>
    intro level
    obtain ⟨parts, hparts, hall⟩ := exists_writeItems fun x hx => ih x hx (level + 1)
    refine ⟨bracketed '[' ']' level parts, ?_, spells_list hall⟩
    rw [writeValue, hparts]
    rfl
  | map hkeys _ ih =>
    intro level
    obtain ⟨parts, hparts, hall⟩ := exists_writeEntries fun e he => ih e he (level + 1)
    refine ⟨bracketed '\x7b' '\x7d' level parts, ?_, spells_map hkeys hall⟩
    rw [writeValue, hparts]
    rfl

/-- **What is written of a plain value is a document that holds it**, also with white space after
it. -/
theorem Plain.read_write {v : Value} (h : Plain v) :
    ∃ text, write v = .ok text ∧ ∀ ws, Blank ws → read (text ++ String.ofList ws) = .ok v := by
  obtain ⟨cs, hwrite, term, hcs, hterm⟩ := h.exists_writeValue 0
  refine ⟨String.ofList cs, by rw [write, hwrite]; rfl, fun ws hws => ?_⟩
  exact read_eq_ok_iff.mpr ⟨term, ⟨[], cs, ws, blank_nil, hcs, hws, by simp⟩, hterm⟩

end Ancestry.Json
