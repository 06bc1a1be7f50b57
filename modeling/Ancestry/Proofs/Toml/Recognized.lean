import Ancestry.Proofs.Toml.Scalars

/-!
# Values are read as the grammar says

The reader of values follows the grammar in both directions: what is written as a value, as the
items of an array or as the entries of an inline table is read as such (`Spells.isRead`), and what
is read was written so (`recognizes`).  It stops at an integer of too many digits exactly if the
text follows the grammar up to one (`Overruns.isRefused`, `refuses`).

The reader has fuel.  To read a value it takes at most two for each character of it.

Each of the three reading functions is opened once, in the second part: there is a lemma for each
rule of the grammar, which says what one call does with what the rule puts together.  The inductions
after that, on how a value is written in one direction and on the fuel in the other, go by these
lemmas.
-/

namespace Ancestry.Toml

open Text (after?)

variable {cs ds ks ws rest : List Char} {v : Value} {key : Key} {entries entries' : Entries}
  {fuel : Nat}

/-! ## 1. How a value and a key begin -/

/-- The characters begin with a token that may come after a gap and does not end an array. -/
def Begins (cs : List Char) : Prop :=
  ∃ c ds, cs = c :: ds ∧ isSpace c = false ∧ c ∉ ['#', ']']

theorem Begins.append (h : Begins cs) (rest : List Char) : Begins (cs ++ rest) := by
  obtain ⟨c, ds, rfl, hc⟩ := h
  exact ⟨c, ds ++ rest, rfl, hc⟩

theorem isBlank_of_isSpace {c : Char} (h : isSpace c = false) : isBlank c = false := by
  simp only [isSpace, Bool.or_eq_false_iff] at h
  exact h.1

theorem Begins.head (h : Begins cs) : ∀ c ∈ cs.head?, isBlank c = false := by
  obtain ⟨c, ds, rfl, hspace, _⟩ := h
  rintro _ ⟨⟩
  exact isBlank_of_isSpace hspace

theorem begins_of_startsScalar {c : Char} (h : StartsScalar c) (cs : List Char) :
    Begins (c :: cs) := by
  refine ⟨c, cs, rfl, ?_, ?_⟩
  · simp [isSpace, isBlank, h.ne]
  · simp [h.ne]

theorem SpellsText.begins {text : String} (h : SpellsText text cs) : Begins cs := by
  obtain ⟨q, us, hq, rfl, _⟩ := h.readText
  exact ⟨q, us, rfl, by rcases hq with rfl | rfl <;> decide⟩

/-- Where a value is expected, the reader passes over gaps and looks for the end of an array first.
It loses nothing of a value by that. -/
theorem Spells.begins (h : Spells (.value v) cs) : Begins cs := by
  cases h with
  | text h => exact h.begins
  | scalar h =>
    obtain ⟨c, us, rfl, hc⟩ := h.exists_cons
    exact begins_of_startsScalar hc us
  | array | noEntries | table => exact ⟨_, _, rfl, by decide⟩

/-- Nor does it of what comes to an integer of too many digits. -/
theorem Overruns.begins (h : Overruns .value cs) : Begins cs := by
  cases h with
  | integer h =>
    obtain ⟨c, us, rfl, hc⟩ := h.exists_cons
    exact begins_of_startsScalar hc us
  | array | table => exact ⟨_, _, rfl, by decide⟩

/-- The characters begin with a key, or as one does. -/
def BeginsKey (cs : List Char) : Prop := ∃ c ds, cs = c :: ds ∧ isBlank c = false ∧ c ≠ '\x7d'

theorem BeginsKey.append (h : BeginsKey cs) (rest : List Char) : BeginsKey (cs ++ rest) := by
  obtain ⟨c, ds, rfl, hc⟩ := h
  exact ⟨c, ds ++ rest, rfl, hc⟩

theorem BeginsKey.head (h : BeginsKey cs) : ∀ c ∈ cs.head?, isBlank c = false := by
  obtain ⟨c, ds, rfl, hblank, _⟩ := h
  rintro _ ⟨⟩
  exact hblank

/-- In the same way, blanks are passed over in front of a key, and the end of a table is looked
for. -/
theorem SpellsKey.beginsKey (h : SpellsKey key ks) : BeginsKey ks := by
  obtain ⟨c, us, rfl, hblank, hc⟩ := SpellsNames.exists_cons h
  exact ⟨c, us, rfl, hblank, fun heq => hc (by simp [heq])⟩

theorem Spells.beginsKey (h : Spells (.inline entries entries') cs) : BeginsKey cs := by
  cases h with
  | lastEntry hkey => exact hkey.beginsKey.append _
  | entry hkey => exact hkey.beginsKey.append _

theorem Overruns.beginsKey (h : Overruns (.inline entries) cs) : BeginsKey cs := by
  cases h with
  | inEntry hkey => exact hkey.beginsKey.append _
  | afterEntry hkey => exact hkey.beginsKey.append _

/-! ## 2. One call -/

/-- The first character decides what kind of value is read.  One lemma says so for each kind. -/
theorem readValue_text {q : Char} (hq : IsQuote q) (fuel : Nat) (cs : List Char) :
    readValue (fuel + 1) (q :: cs) = (readText q cs).map fun p => (.text p.1, p.2) := by
  rw [readValue, if_pos (isQuote_iff.mpr hq)]

theorem readValue_array (fuel : Nat) (cs : List Char) :
    readValue (fuel + 1) ('[' :: cs) = (readItems fuel cs).map fun p => (.list p.1, p.2) := by
  rw [readValue]
  rfl

theorem readValue_noEntries (hws : Blanks ws) (fuel : Nat) (rest : List Char) :
    readValue (fuel + 1) ('\x7b' :: (ws ++ '\x7d' :: rest)) = .ok (.map [], rest) := by
  rw [readValue]
  simp only [hws.skip_cons (c := '\x7d') rfl]
  rfl

/-- The entries of a table begin after blanks, where its end is not. -/
theorem readValue_table (hws : Blanks ws) (hcs : BeginsKey cs) (fuel : Nat) :
    readValue (fuel + 1) ('\x7b' :: (ws ++ cs)) =
      (readInline fuel [] cs).map fun p => (.map (valuesOf p.1), p.2) := by
  rw [readValue]
  simp only [Char.reduceEq, decide_false, Bool.or_self, Bool.false_eq_true, if_false, if_true,
    hws.skip hcs.head]
  obtain ⟨c, ds, rfl, _, hlast⟩ := hcs
  split
  · next heq => exact absurd (List.cons.inj heq).1 hlast
  · rfl

theorem readValue_scalar {c : Char} (hc : StartsScalar c) (fuel : Nat) (cs : List Char) :
    readValue (fuel + 1) (c :: cs) = readScalar (c :: cs) := by
  rw [readValue]
  simp [hc.ne]

/-- A text needs to be told from a longer one, which would have another quote after it. -/
theorem SpellsText.readValue {text : String} (h : SpellsText text cs) (hrest : Follows rest)
    (fuel : Nat) : readValue (fuel + 1) (cs ++ rest) = .ok (.text text, rest) := by
  obtain ⟨q, us, hq, rfl, hread⟩ := h.readText
  have hquote : ∀ c ∈ rest.head?, c ≠ q := by
    rintro c hc rfl
    rcases hq with rfl | rfl
    · exact absurd (hrest.head _ hc) (by decide)
    · exact absurd (hrest.head _ hc) (by decide)
  rw [List.cons_append, readValue_text hq, hread rest hquote]
  rfl

/-- The first character of a scalar begins nothing else. -/
theorem SpellsScalar.readValue (h : SpellsScalar v cs) (hrest : Follows rest) (fuel : Nat) :
    readValue (fuel + 1) (cs ++ rest) = .ok (v, rest) := by
  have hread := h.readScalar hrest
  obtain ⟨c, us, rfl, hc⟩ := h.exists_cons
  rw [List.cons_append, readValue_scalar hc]
  exact hread

/-- The items of an array from the beginning of the first one on. -/
def readItem (fuel : Nat) (cs : List Char) : Except ReadError (List Value × List Char) := do
  let (v, rest) ← readValue fuel cs
  match ← skipLines (rest.length + 1) rest with
  | ']' :: rest => return ([v], rest)
  | ',' :: rest =>
    let (vs, rest) ← readItems fuel rest
    return (v :: vs, rest)
  | _ => .error .malformed

/-- The readers give `skipLines` as much fuel as there are characters, which is enough for any
gap. -/
theorem Gap.skip_all (hws : Gap ws) (hcs : ∀ c ∈ cs.head?, isSpace c = false ∧ c ≠ '#') :
    skipLines ((ws ++ cs).length + 1) (ws ++ cs) = .ok cs :=
  hws.skip hcs (by simp only [List.length_append]; omega)

theorem Gap.skip_cons {c : Char} (hws : Gap ws) (hc : c = ']' ∨ c = ',') (cs : List Char) :
    skipLines ((ws ++ c :: cs).length + 1) (ws ++ c :: cs) = .ok (c :: cs) := by
  refine hws.skip_all ?_
  rintro _ ⟨⟩
  rcases hc with rfl | rfl <;> decide

/-- Of the reader of items there is one lemma for each rule of the grammar, and one for an item that
cannot be read. -/
theorem readItems_nil (hws : Gap ws) (fuel : Nat) (rest : List Char) :
    readItems (fuel + 1) (ws ++ ']' :: rest) = .ok ([], rest) := by
  rw [readItems]
  simp only [hws.skip_cons (.inl rfl), bind, Except.bind]
  rfl

/-- In front of an item a gap is passed over. -/
theorem readItems_gap (hws : Gap ws) (hcs : Begins cs) (fuel : Nat) :
    readItems (fuel + 1) (ws ++ cs) = readItem fuel cs := by
  obtain ⟨c, ds, rfl, hspace, hc⟩ := hcs
  have hskip : skipLines ((ws ++ c :: ds).length + 1) (ws ++ c :: ds) = .ok (c :: ds) := by
    refine hws.skip_all ?_
    rintro _ ⟨⟩
    exact ⟨hspace, fun heq => hc (by simp [heq])⟩
  rw [readItems]
  simp only [hskip, bind, Except.bind]
  split
  · next heq => cases heq; exact absurd (by decide) hc
  · rfl

/-- After the last item the array ends. -/
theorem readItem_last (h : readValue fuel cs = .ok (v, ws ++ ']' :: rest)) (hws : Gap ws) :
    readItem fuel cs = .ok ([v], rest) := by
  rw [readItem, h]
  simp only [bind, Except.bind, hws.skip_cons (.inl rfl)]
  rfl

/-- After a comma more items are read, or the array ends. -/
theorem readItem_cons (h : readValue fuel cs = .ok (v, ws ++ ',' :: ds)) (hws : Gap ws) :
    readItem fuel cs = (readItems fuel ds).map fun p => (v :: p.1, p.2) := by
  rw [readItem, h]
  simp only [bind, Except.bind, hws.skip_cons (.inr rfl)]
  cases readItems fuel ds <;> rfl

theorem readItem_error {e : ReadError} (h : readValue fuel cs = .error e) :
    readItem fuel cs = .error e := by
  rw [readItem, h]
  rfl

/-- The entries of an inline table from the value of the one with this key on. -/
def readEntry (fuel : Nat) (key : Key) (entries : Entries) (cs : List Char) :
    Except ReadError (Entries × List Char) := do
  let (v, rest) ← readValue fuel cs
  match assign 0 key.path key.name v entries with
  | none => .error .malformed
  | some entries =>
    match skipBlanks rest with
    | '\x7d' :: rest => return (entries, rest)
    | ',' :: rest => readInline fuel entries (skipBlanks rest)
    | _ => .error .malformed

theorem endsKey_equals (cs : List Char) : EndsKey ('=' :: cs) := ⟨_, _, rfl, .inl rfl⟩

/-- A key is read up to where its value begins. -/
theorem SpellsKey.readInline (h : SpellsKey key ks) (hws : Blanks ws)
    (hcs : ∀ c ∈ cs.head?, isBlank c = false) (fuel : Nat) (entries : Entries) :
    readInline (fuel + 1) entries (ks ++ '=' :: (ws ++ cs)) = readEntry fuel key entries cs := by
  have hread := h.readKey (endsKey_equals (ws ++ cs))
  rw [Toml.readInline]
  simp only [hread, bind, Except.bind, after?_cons, hws.skip hcs]
  rfl

/-- After the last entry the table ends. -/
theorem readEntry_last (h : readValue fuel cs = .ok (v, ws ++ '\x7d' :: rest)) (hws : Blanks ws)
    (hassign : assign 0 key.path key.name v entries = some entries') :
    readEntry fuel key entries cs = .ok (entries', rest) := by
  rw [readEntry, h]
  simp only [bind, Except.bind, hassign, hws.skip_cons (c := '\x7d') rfl]
  rfl

/-- After a comma there is another entry: an inline table does not end with one. -/
theorem readEntry_cons {ws' : List Char} (h : readValue fuel cs = .ok (v, ws ++ ',' :: (ws' ++ ds)))
    (hws : Blanks ws) (hassign : assign 0 key.path key.name v entries = some entries')
    (hws' : Blanks ws') (hds : BeginsKey ds) :
    readEntry fuel key entries cs = readInline fuel entries' ds := by
  rw [readEntry, h]
  simp only [bind, Except.bind, hassign, hws.skip_cons (c := ',') rfl, hws'.skip hds.head]

theorem readEntry_error {e : ReadError} (h : readValue fuel cs = .error e) :
    readEntry fuel key entries cs = .error e := by
  rw [readEntry, h]
  rfl

/-! ## 3. What follows the grammar is read -/

/-- Blanks may come between a value and what may come after it. -/
theorem Blanks.follows (hws : Blanks ws) (h : Follows rest) : Follows (ws ++ rest) := by
  obtain ⟨ws', after, hws', rfl, hafter⟩ := h
  refine ⟨ws ++ ws', after, fun c hc => ?_, (List.append_assoc _ _ _).symm, hafter⟩
  rcases List.mem_append.mp hc with hc | hc
  · exact hws c hc
  · exact hws' c hc

theorem follows_cons {c : Char} (hc : c ∈ ['\n', '#', ',', ']', '\x7d']) (cs : List Char) :
    Follows (c :: cs) :=
  follows_of_head (by rintro _ ⟨⟩; exact hc)

/-- What comes after a value in an array may come after it. -/
theorem Gap.follows (hws : Gap ws) (h : Follows rest) : Follows (ws ++ rest) := by
  induction hws with
  | nil => exact h
  | @space c cs hc _ ih =>
    simp only [isSpace, Bool.or_eq_true, decide_eq_true_eq] at hc
    rcases hc with hc | rfl
    · have hblank : Blanks [c] := by simpa [Blanks] using hc
      exact hblank.follows ih
    · exact follows_cons (by decide) _
  | comment => exact follows_cons (by decide) _

/-- What is written as a part of a value is read as that part, whatever comes after it. -/
def IsRead : Part → List Char → Prop
  | .value v, cs => ∀ rest fuel, Follows rest → 2 * cs.length ≤ fuel →
    readValue fuel (cs ++ rest) = .ok (v, rest)
  | .items vs, cs => ∀ rest fuel, 2 * cs.length < fuel →
    readItems fuel (cs ++ ']' :: rest) = .ok (vs, rest)
  | .inline before after, cs => ∀ rest fuel, 2 * cs.length < fuel →
    readInline fuel before (cs ++ '\x7d' :: rest) = .ok (after, rest)

/-- A value is read if it is with one call more than none. -/
theorem isRead_value (hcs : Begins cs) (h : ∀ rest fuel, Follows rest → 2 * cs.length ≤ fuel + 1 →
    readValue (fuel + 1) (cs ++ rest) = .ok (v, rest)) : IsRead (.value v) cs := by
  intro rest fuel hrest hfuel
  cases fuel with
  | zero =>
    obtain ⟨c, ds, rfl, _⟩ := hcs
    exact absurd hfuel (by simp)
  | succ fuel => exact h rest fuel hrest hfuel

/-- Items are read if they are with one call more than none, and so are entries. -/
theorem isRead_items {vs : List Value} (h : ∀ rest fuel, 2 * cs.length ≤ fuel →
    readItems (fuel + 1) (cs ++ ']' :: rest) = .ok (vs, rest)) :
    IsRead (.items vs) cs := by
  intro rest fuel hfuel
  cases fuel with
  | zero => exact absurd hfuel (Nat.not_lt_zero _)
  | succ fuel => exact h rest fuel (Nat.le_of_lt_succ hfuel)

theorem isRead_entries {before after : Entries} (h : ∀ rest fuel, 2 * cs.length ≤ fuel →
    readInline (fuel + 1) before (cs ++ '\x7d' :: rest) = .ok (after, rest)) :
    IsRead (.inline before after) cs := by
  intro rest fuel hfuel
  cases fuel with
  | zero => exact absurd hfuel (Nat.not_lt_zero _)
  | succ fuel => exact h rest fuel (Nat.le_of_lt_succ hfuel)

/-- **Whatever follows the grammar is read.** -/
theorem Spells.isRead {part : Part} (h : Spells part cs) : IsRead part cs := by
  induction h with
  | text h => exact isRead_value h.begins fun _ fuel hrest _ => h.readValue hrest fuel
  | scalar h =>
    exact isRead_value (Spells.scalar h).begins fun _ fuel hrest _ => h.readValue hrest fuel
  -- The bracket takes one unit of fuel, and leaves two for each character between the brackets.
  | array h ih =>
    refine isRead_value (Spells.array h).begins fun rest fuel _ hfuel => ?_
    have hitems := ih rest fuel (by simp at hfuel; omega)
    simp only [List.cons_append, List.append_assoc, List.nil_append]
    rw [readValue_array, hitems]
    rfl
  | noEntries hws =>
    refine isRead_value (Spells.noEntries hws).begins fun rest fuel _ _ => ?_
    simpa using readValue_noEntries hws fuel rest
  | table hws h ih =>
    refine isRead_value (Spells.table hws h).begins fun rest fuel _ hfuel => ?_
    have hentries := ih rest fuel (by simp at hfuel; omega)
    simp only [List.cons_append, List.append_assoc, List.nil_append]
    rw [readValue_table hws (h.beginsKey.append _), hentries]
    rfl
  | noItems hws =>
    refine isRead_items fun rest fuel hfuel => ?_
    exact readItems_nil hws fuel rest
  | lastItem hws hv hws' ih =>
    refine isRead_items fun rest fuel hfuel => ?_
    simp only [List.append_assoc, List.length_append] at hfuel ⊢
    rw [readItems_gap hws (hv.begins.append _)]
    exact readItem_last (ih _ fuel (hws'.follows (follows_cons (by decide) _)) (by omega)) hws'
  | item hws hv hws' _ ih ihs =>
    refine isRead_items fun rest fuel hfuel => ?_
    simp only [List.append_assoc, List.cons_append, List.length_append, List.length_cons] at hfuel ⊢
    rw [readItems_gap hws (hv.begins.append _), readItem_cons
      (ih _ fuel (hws'.follows (follows_cons (by decide) _)) (by omega)) hws',
      ihs rest fuel (by omega)]
    rfl
  | lastEntry hkey hws hv hws' hassign ih =>
    refine isRead_entries fun rest fuel hfuel => ?_
    simp only [List.append_assoc, List.cons_append, List.length_append, List.length_cons] at hfuel ⊢
    rw [hkey.readInline hws (hv.begins.append _).head]
    exact readEntry_last (ih _ fuel (hws'.follows (follows_cons (by decide) _)) (by omega)) hws'
      hassign
  | entry hkey hws hv hws' hassign hws'' hmore ih ihs =>
    refine isRead_entries fun rest fuel hfuel => ?_
    simp only [List.append_assoc, List.cons_append, List.length_append, List.length_cons] at hfuel ⊢
    rw [hkey.readInline hws (hv.begins.append _).head, readEntry_cons
      (ih _ fuel (hws'.follows (follows_cons (by decide) _)) (by omega)) hws' hassign hws''
      (hmore.beginsKey.append _), ihs rest fuel (by omega)]

/-- What comes to an integer of too many digits is not read because of it. -/
def IsRefused : Expected → List Char → Prop
  | .value, cs => ∀ fuel, 2 * cs.length ≤ fuel → readValue fuel cs = .error .hugeInteger
  | .items, cs => ∀ fuel, 2 * cs.length < fuel → readItems fuel cs = .error .hugeInteger
  | .inline entries, cs => ∀ fuel, 2 * cs.length < fuel →
    readInline fuel entries cs = .error .hugeInteger

theorem isRefused_value (hcs : Begins cs) (h : ∀ fuel, 2 * cs.length ≤ fuel + 1 →
    readValue (fuel + 1) cs = .error .hugeInteger) : IsRefused .value cs := by
  intro fuel hfuel
  cases fuel with
  | zero =>
    obtain ⟨c, ds, rfl, _⟩ := hcs
    exact absurd hfuel (by simp)
  | succ fuel => exact h fuel hfuel

theorem isRefused_items (h : ∀ fuel, 2 * cs.length ≤ fuel →
    readItems (fuel + 1) cs = .error .hugeInteger) : IsRefused .items cs := by
  intro fuel hfuel
  cases fuel with
  | zero => exact absurd hfuel (Nat.not_lt_zero _)
  | succ fuel => exact h fuel (Nat.le_of_lt_succ hfuel)

theorem isRefused_entries {entries : Entries} (h : ∀ fuel, 2 * cs.length ≤ fuel →
    readInline (fuel + 1) entries cs = .error .hugeInteger) : IsRefused (.inline entries) cs := by
  intro fuel hfuel
  cases fuel with
  | zero => exact absurd hfuel (Nat.not_lt_zero _)
  | succ fuel => exact h fuel (Nat.le_of_lt_succ hfuel)

/-- **Whatever follows the grammar up to an integer of too many digits is refused.** -/
theorem Overruns.isRefused {expected : Expected} (h : Overruns expected cs) :
    IsRefused expected cs := by
  induction h with
  | integer h =>
    refine isRefused_value (Overruns.integer h).begins fun fuel _ => ?_
    have hread := readScalar_eq_hugeInteger_iff.mpr h
    obtain ⟨c, us, rfl, hc⟩ := h.exists_cons
    rw [readValue_scalar hc, hread]
  | array h ih =>
    refine isRefused_value (Overruns.array h).begins fun fuel hfuel => ?_
    rw [readValue_array, ih fuel (by simp at hfuel; omega)]
    rfl
  | table hws h ih =>
    refine isRefused_value (Overruns.table hws h).begins fun fuel hfuel => ?_
    rw [readValue_table hws h.beginsKey, ih fuel (by simp at hfuel; omega)]
    rfl
  | inItem hws h ih =>
    refine isRefused_items fun fuel hfuel => ?_
    simp only [List.length_append] at hfuel
    rw [readItems_gap hws h.begins]
    exact readItem_error (ih fuel (by omega))
  | afterItem hws hv hws' _ ih =>
    refine isRefused_items fun fuel hfuel => ?_
    simp only [List.length_append, List.length_cons] at hfuel
    rw [readItems_gap hws (hv.begins.append _), readItem_cons
      (hv.isRead _ fuel (hws'.follows (follows_cons (by decide) _)) (by omega)) hws',
      ih fuel (by omega)]
    rfl
  | inEntry hkey hws h ih =>
    refine isRefused_entries fun fuel hfuel => ?_
    simp only [List.length_append, List.length_cons] at hfuel
    rw [hkey.readInline hws h.begins.head]
    exact readEntry_error (ih fuel (by omega))
  | afterEntry hkey hws hv hws' hassign hws'' h ih =>
    refine isRefused_entries fun fuel hfuel => ?_
    simp only [List.length_append, List.length_cons] at hfuel
    rw [hkey.readInline hws (hv.begins.append _).head, readEntry_cons
      (hv.isRead _ fuel (hws'.follows (follows_cons (by decide) _)) (by omega)) hws' hassign hws''
      h.beginsKey, ih fuel (by omega)]

/-! ## 4. What is read follows the grammar -/

/-- A key and an equals sign with a value behind it, or what stands there is malformed. -/
theorem readKey_cases (cs : List Char) : readKey cs = .error .malformed ∨
    (∃ key rest, readKey cs = .ok (key, rest) ∧ after? ['='] rest = none) ∨
    ∃ key ks ws after, SpellsKey key ks ∧ Blanks ws ∧ cs = ks ++ '=' :: (ws ++ after) ∧
      ∀ c ∈ after.head?, isBlank c = false := by
  cases hkey : readKey cs with
  | error e =>
    cases e with
    | malformed => exact .inl rfl
    | hugeInteger => exact absurd hkey (readKey_ne_hugeInteger cs)
  | ok p =>
    obtain ⟨key, rest⟩ := p
    refine .inr ?_
    cases hequals : after? ['='] rest with
    | none => exact .inl ⟨key, rest, rfl, hequals⟩
    | some after =>
      obtain ⟨ks, hks, rfl⟩ := exists_of_readKey hkey
      obtain ⟨ws, hws, hafter⟩ := exists_skipBlanks after
      refine .inr ⟨key, ks, ws, skipBlanks after, hks, hws, ?_, head_skipBlanks after⟩
      rw [← hafter, Text.eq_append_of_after? hequals]
      rfl

/-- Entries begin with a key and an equals sign, or they are malformed. -/
theorem readInline_cases (fuel : Nat) (entries : Entries) (cs : List Char) :
    readInline (fuel + 1) entries cs = .error .malformed ∨ ∃ key ks ws after, SpellsKey key ks ∧
      Blanks ws ∧ cs = ks ++ '=' :: (ws ++ after) ∧
        readInline (fuel + 1) entries cs = readEntry fuel key entries after := by
  rcases readKey_cases cs with hkey | ⟨key, rest, hkey, hequals⟩ |
    ⟨key, ks, ws, after, hks, hws, rfl, hafter⟩
  · exact .inl (by rw [readInline, hkey]; rfl)
  · exact .inl (by rw [readInline, hkey]; simp only [bind, Except.bind, hequals])
  · exact .inr ⟨key, ks, ws, after, hks, hws, rfl, hks.readInline hws hafter fuel entries⟩

/-- An array ends after a gap, or an item comes there. -/
theorem readItems_cases (fuel : Nat) (cs : List Char) :
    readItems (fuel + 1) cs = .error .malformed ∨
    (∃ ws rest, Gap ws ∧ cs = ws ++ ']' :: rest ∧ readItems (fuel + 1) cs = .ok ([], rest)) ∨
    ∃ ws after, Gap ws ∧ cs = ws ++ after ∧ readItems (fuel + 1) cs = readItem fuel after := by
  cases hskip : skipLines (cs.length + 1) cs with
  | error e =>
    cases e with
    | malformed => exact .inl (by rw [readItems, hskip]; rfl)
    | hugeInteger => exact absurd hskip (skipLines_ne_hugeInteger _ cs)
  | ok after =>
    cases after with
    | nil =>
      refine .inl ?_
      rw [readItems, hskip]
      simp only [bind, Except.bind, readValue_nil]
    | cons c after =>
      obtain ⟨⟨hspace, hc⟩, ws, hws, rfl⟩ := exists_of_skipLines (Nat.lt_succ_self _) hskip
      refine .inr ?_
      by_cases hend : c = ']'
      · subst hend
        exact .inl ⟨ws, after, hws, rfl, readItems_nil hws fuel after⟩
      · exact .inr ⟨ws, c :: after, hws, rfl,
          readItems_gap hws ⟨c, after, rfl, hspace, by simp [hc, hend]⟩ fuel⟩

/-- What the reading functions return was written in front of the rest. -/
structure Recognizes (fuel : Nat) : Prop where
  value : ∀ {cs v rest}, readValue fuel cs = .ok (v, rest) →
    ∃ ds, Spells (.value v) ds ∧ cs = ds ++ rest
  items : ∀ {cs vs rest}, readItems fuel cs = .ok (vs, rest) →
    ∃ ds, Spells (.items vs) ds ∧ cs = ds ++ ']' :: rest
  inline : ∀ {cs before after rest}, readInline fuel before cs = .ok (after, rest) →
    ∃ ds, Spells (.inline before after) ds ∧ cs = ds ++ '\x7d' :: rest

/-- **What is read as a value was written as one.**  The first character says by which rule. -/
theorem Recognizes.readValue (ih : Recognizes fuel)
    (h : readValue (fuel + 1) cs = .ok (v, rest)) :
    ∃ ds, Spells (.value v) ds ∧ cs = ds ++ rest := by
  cases cs with
  | nil => rw [readValue_nil] at h; cases h
  | cons c cs =>
    rw [Toml.readValue] at h
    split at h
    · next hq =>
      obtain ⟨⟨text, after⟩, htext, heq⟩ := map_eq_ok h
      cases heq
      obtain ⟨us, hus, rfl⟩ := exists_of_readText (isQuote_iff.mp hq) htext
      exact ⟨_, .text hus, rfl⟩
    split at h
    · next hc =>
      obtain ⟨⟨vs, after⟩, hvs, heq⟩ := map_eq_ok h
      cases heq
      obtain ⟨ds, hds, rfl⟩ := ih.items hvs
      exact ⟨_, .array hds, by rw [hc]; simp⟩
    split at h
    · next hc =>
      obtain ⟨ws, hws, hcs⟩ := exists_skipBlanks cs
      split at h
      · next heq =>
        cases h
        rw [hcs, heq, hc]
        exact ⟨_, .noEntries hws, by simp⟩
      · obtain ⟨⟨entries, after⟩, hentries, heq⟩ := map_eq_ok h
        cases heq
        obtain ⟨ds, hds, heq⟩ := ih.inline hentries
        rw [hcs, heq, hc]
        exact ⟨_, .table hws hds, by simp⟩
    · obtain ⟨ds, hds, heq⟩ := exists_of_readScalar h
      exact ⟨ds, .scalar hds, heq⟩

/-- **What is read as items was written as such.**  After an item there is the end of the array, or
a comma and more items. -/
theorem Recognizes.readItems (ih : Recognizes fuel) {vs : List Value}
    (h : readItems (fuel + 1) cs = .ok (vs, rest)) :
    ∃ ds, Spells (.items vs) ds ∧ cs = ds ++ ']' :: rest := by
  rcases readItems_cases fuel cs with hmalformed | ⟨ws, after, hws, rfl, hnil⟩ |
    ⟨ws, after, hws, rfl, hitem⟩
  · cases h.symm.trans hmalformed
  · cases h.symm.trans hnil
    exact ⟨ws, .noItems hws, rfl⟩
  rw [hitem, readItem] at h
  -- An item comes first.  What it was written as is known by induction, with less fuel.
  obtain ⟨⟨first, afterFirst⟩, hfirst, hmore⟩ := bind_eq_ok h
  obtain ⟨ds, hds, rfl⟩ := ih.value hfirst
  obtain ⟨found, hskip, hmore⟩ := bind_eq_ok hmore
  split at hmore
  · cases hmore
    obtain ⟨_, ws', hws', heq⟩ := exists_of_skipLines (Nat.lt_succ_self _) hskip
    rw [heq]
    exact ⟨_, .lastItem hws hds hws', by simp⟩
  · next others =>
    obtain ⟨⟨vs', _⟩, hothers, hend⟩ := bind_eq_ok hmore
    cases hend
    obtain ⟨_, ws', hws', heq⟩ := exists_of_skipLines (Nat.lt_succ_self _) hskip
    obtain ⟨ds', hds', heq'⟩ := ih.items hothers
    rw [heq, heq']
    exact ⟨_, .item hws hds hws' hds', by simp⟩
  · cases hmore

/-- **What is read as entries was written as such.**  Each entry was put in by `assign`, as the
rules for entries ask. -/
theorem Recognizes.readInline (ih : Recognizes fuel)
    (h : readInline (fuel + 1) entries cs = .ok (entries', rest)) :
    ∃ ds, Spells (.inline entries entries') ds ∧ cs = ds ++ '\x7d' :: rest := by
  rcases readInline_cases fuel entries cs with
    hmalformed | ⟨key, ks, ws, after, hkey, hws, rfl, hread⟩
  · cases h.symm.trans hmalformed
  rw [hread, readEntry] at h
  -- Key and equals sign are there.  What the value was written as is known by induction.
  obtain ⟨⟨v, afterValue⟩, hv, hmore⟩ := bind_eq_ok h
  obtain ⟨ds, hds, rfl⟩ := ih.value hv
  simp only at hmore
  split at hmore
  · cases hmore
  · next hassign =>
    obtain ⟨ws', hws', hafter⟩ := exists_skipBlanks afterValue
    split at hmore
    · next heq =>
      cases hmore
      rw [hafter, heq]
      exact ⟨_, .lastEntry hkey hws hds hws' hassign, by simp⟩
    · next others heq =>
      obtain ⟨ws'', hws'', hothers⟩ := exists_skipBlanks others
      obtain ⟨ds', hds', heq'⟩ := ih.inline hmore
      rw [hafter, heq, hothers, heq']
      exact ⟨_, .entry hkey hws hds hws' hassign hws'' hds', by simp⟩
    · cases hmore

/-- **What is read follows the grammar**, with any amount of fuel. -/
theorem recognizes (fuel : Nat) : Recognizes fuel := by
  induction fuel with
  | zero => exact ⟨nofun, nofun, nofun⟩
  | succ fuel ih => exact ⟨ih.readValue, ih.readItems, ih.readInline⟩

/-- What the reading functions refuse for an integer comes to one of too many digits. -/
structure Refuses (fuel : Nat) : Prop where
  value : ∀ {cs}, readValue fuel cs = .error .hugeInteger → Overruns .value cs
  items : ∀ {cs}, readItems fuel cs = .error .hugeInteger → Overruns .items cs
  inline : ∀ {cs entries}, readInline fuel entries cs = .error .hugeInteger →
    Overruns (.inline entries) cs

/-- A value is refused for the digits of a scalar, an item or an entry. -/
theorem Refuses.readValue (ih : Refuses fuel) (h : readValue (fuel + 1) cs = .error .hugeInteger) :
    Overruns .value cs := by
  cases cs with
  | nil => rw [readValue_nil] at h; cases h
  | cons c cs =>
    rw [Toml.readValue] at h
    split at h
    · exact absurd (map_eq_error h) (readText_ne_hugeInteger c cs)
    split at h
    · next hc =>
      rw [hc]
      exact .array (ih.items (map_eq_error h))
    split at h
    · next hc =>
      obtain ⟨ws, hws, hcs⟩ := exists_skipBlanks cs
      split at h
      · cases h
      · rw [hc, hcs]
        exact .table hws (ih.inline (map_eq_error h))
    · exact .integer (readScalar_eq_hugeInteger_iff.mp h)

/-- Items are refused for the first one, or for a later one after those that were read. -/
theorem Refuses.readItems (ih : Refuses fuel) (h : readItems (fuel + 1) cs = .error .hugeInteger) :
    Overruns .items cs := by
  rcases readItems_cases fuel cs with hmalformed | ⟨ws, after, hws, rfl, hnil⟩ |
    ⟨ws, after, hws, rfl, hitem⟩
  · cases h.symm.trans hmalformed
  · cases h.symm.trans hnil
  rw [hitem, readItem] at h
  rcases bind_eq_error h with hfirst | ⟨⟨first, afterFirst⟩, hfirst, hmore⟩
  -- Otherwise the first item was read, and so written, and the integer is in what comes after it.
  · exact .inItem hws (ih.value hfirst)
  obtain ⟨ds, hds, rfl⟩ := (recognizes fuel).value hfirst
  rcases bind_eq_error hmore with hskip | ⟨found, hskip, hmore⟩
  · exact absurd hskip (skipLines_ne_hugeInteger _ _)
  split at hmore
  · cases hmore
  · next others =>
    rcases bind_eq_error hmore with hothers | ⟨_, _, hend⟩
    · obtain ⟨_, ws', hws', heq⟩ := exists_of_skipLines (Nat.lt_succ_self _) hskip
      rw [heq]
      exact .afterItem hws hds hws' (ih.items hothers)
    · cases hend
  · cases hmore

/-- And entries likewise. -/
theorem Refuses.readInline (ih : Refuses fuel)
    (h : readInline (fuel + 1) entries cs = .error .hugeInteger) :
    Overruns (.inline entries) cs := by
  rcases readInline_cases fuel entries cs with
    hmalformed | ⟨key, ks, ws, after, hkey, hws, rfl, hread⟩
  · cases h.symm.trans hmalformed
  rw [hread, readEntry] at h
  rcases bind_eq_error h with hv | ⟨⟨v, afterValue⟩, hv, hmore⟩
  -- Otherwise the value was read, and the integer is in a later entry.
  · exact .inEntry hkey hws (ih.value hv)
  obtain ⟨ds, hds, rfl⟩ := (recognizes fuel).value hv
  simp only at hmore
  split at hmore
  · cases hmore
  · next hassign =>
    obtain ⟨ws', hws', hafter⟩ := exists_skipBlanks afterValue
    split at hmore
    · cases hmore
    · next others heq =>
      obtain ⟨ws'', hws'', hothers⟩ := exists_skipBlanks others
      rw [hafter, heq, hothers]
      exact .afterEntry hkey hws hds hws' hassign hws'' (ih.inline hmore)
    · cases hmore

/-- **What is refused for its digits follows the grammar up to an integer**, with any amount of
fuel. -/
theorem refuses (fuel : Nat) : Refuses fuel := by
  induction fuel with
  | zero => exact ⟨nofun, nofun, nofun⟩
  | succ fuel ih => exact ⟨ih.readValue, ih.readItems, ih.readInline⟩

end Ancestry.Toml
