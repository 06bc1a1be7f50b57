import Ancestry.Proofs.Json.Tokens

/-!
# The reader follows the grammar

A value is read from a text exactly if the text is a document that holds the value
(`read_eq_ok_iff`), the reader stops at an integer of too many digits exactly if the text follows
the grammar up to one (`read_eq_hugeInteger_iff`), and it finds half a character exactly in a
document in which a half stands alone (`read_eq_loneHalf_iff`).  The first two say the same twice:
the induction is on how the text is written in one direction and on the fuel in the other one.

The reader has fuel.  To read a value it takes at most two for each character of it.

Each of the three reading functions is opened once, in the second part: there is a lemma for each
rule of the grammar, which says what one call does with what the rule puts together.  The inductions
after that go by these lemmas.
-/

namespace Ancestry.Json

open Text (ne_of_isDigit)

variable {cs ds ws rest : List Char} {v : Term} {fuel : Nat}

/-! ## 1. How a part begins -/

/-- The characters begin with a token that neither ends a list nor an object. -/
def Begins (cs : List Char) : Prop :=
  ∃ c ds, cs = c :: ds ∧ isSpace c = false ∧ c ≠ ']' ∧ c ≠ '\x7d'

theorem Begins.append (h : Begins cs) (rest : List Char) : Begins (cs ++ rest) := by
  obtain ⟨c, ds, rfl, hc⟩ := h
  exact ⟨c, ds ++ rest, rfl, hc⟩

/-- White space in front is passed over up to where a part begins. -/
theorem Begins.head (h : Begins cs) : ∀ c ∈ cs.head?, isSpace c = false := by
  obtain ⟨c, ds, rfl, hspace, _⟩ := h
  rintro _ ⟨⟩
  exact hspace

theorem IsWhole.exists_cons (h : IsWhole ds) : ∃ d ds', ds = d :: ds' ∧ d.isDigit = true := by
  rcases h with rfl | ⟨hds, _⟩
  · exact ⟨'0', [], rfl, rfl⟩
  · obtain ⟨d, ds', rfl, hd, _⟩ := hds.exists_cons
    exact ⟨d, ds', rfl, hd⟩

/-- A number begins with a digit, and so it is told from every other value. -/
theorem SpellsNumber.exists_cons {negative : Bool} (h : SpellsNumber negative v cs) :
    ∃ d ds, cs = d :: ds ∧ d.isDigit = true := by
  cases h with
  | integer hds => exact hds.exists_cons
  | decimal hds =>
    obtain ⟨d, ds, rfl, hd⟩ := hds.exists_cons
    exact ⟨d, _, rfl, hd⟩

/-- And so does an integer of too many digits. -/
theorem LongInteger.exists_cons (h : LongInteger cs) : ∃ d ds, cs = d :: ds ∧ d.isDigit = true := by
  obtain ⟨ds, rest, hds, _, _, rfl⟩ := h
  obtain ⟨d, ds, rfl, hd⟩ := hds.exists_cons
  exact ⟨d, _, rfl, hd⟩

/-- A digit ends neither a list nor an object. -/
theorem begins_of_isDigit {d : Char} (hd : d.isDigit = true) (cs : List Char) :
    Begins (d :: cs) := by
  have hne := fun c hc => (ne_of_isDigit (d := c) hd hc).symm
  exact ⟨d, cs, rfl, by simp [isSpace, hne], hne _ rfl, hne _ rfl⟩

/-- A key begins with its opening quote. -/
theorem SpellsKey.exists_cons {key : List Nat} (h : SpellsKey key cs) :
    ∃ ds, cs = '\x22' :: ds := by
  obtain ⟨_, _, _, htext, _, _, rfl⟩ := h
  obtain ⟨us, rfl⟩ := htext.exists_cons
  exact ⟨_, rfl⟩

theorem SpellsKey.begins {key : List Nat} (h : SpellsKey key cs) : Begins cs := by
  obtain ⟨ds, rfl⟩ := h.exists_cons
  exact ⟨_, _, rfl, rfl, by decide, by decide⟩

/-- After a bracket the reader passes over white space and looks for the closing one.  It loses
nothing of an item or an entry by that. -/
theorem Spells.begins {part : Part} (h : Spells part cs) : Begins cs := by
  induction h with
  | word h =>
    simp only [words, List.mem_cons, Prod.mk.injEq, List.not_mem_nil, or_false] at h
    rcases h with ⟨rfl, _⟩ | ⟨rfl, _⟩ | ⟨rfl, _⟩ | ⟨rfl, _⟩ | ⟨rfl, _⟩ | ⟨rfl, _⟩ <;>
      exact ⟨_, _, rfl, rfl, by decide, by decide⟩
  | text h =>
    obtain ⟨us, rfl⟩ := h.exists_cons
    exact ⟨_, _, rfl, rfl, by decide, by decide⟩
  | number h =>
    obtain ⟨d, ds, rfl, hd⟩ := h.exists_cons
    exact begins_of_isDigit hd ds
  | negative | noItems | list | noEntries | map => exact ⟨_, _, rfl, rfl, by decide, by decide⟩
  | lastItem _ _ ih => exact ih.append _
  | item _ _ _ _ ih => exact ih.append _
  | lastEntry hkey => exact hkey.begins.append _
  | entry hkey => exact hkey.begins.append _

/-- Nor does it of what comes to an integer of too many digits. -/
theorem Overruns.begins {expected : Expected} (h : Overruns expected cs) : Begins cs := by
  induction h with
  | integer h =>
    obtain ⟨d, ds, rfl, hd⟩ := h.exists_cons
    exact begins_of_isDigit hd ds
  | negative | list | map => exact ⟨_, _, rfl, rfl, by decide, by decide⟩
  | inItem _ ih => exact ih
  | afterItem hx => exact hx.begins.append _
  | inEntry hkey => exact hkey.begins.append _
  | afterEntry hkey => exact hkey.begins.append _

/-! ## 2. One call -/

/-- The first character decides what kind of value is read.  One lemma says so for each kind, and
for each rule of the grammar by which items and entries go on. -/
theorem readValue_text (fuel : Nat) (cs : List Char) : readValue (fuel + 1) ('\x22' :: cs) =
    (readUnits cs).map fun p => (.text p.1, p.2) := rfl

theorem readValue_noItems (hws : Blank ws) (fuel : Nat) (rest : List Char) :
    readValue (fuel + 1) ('[' :: (ws ++ ']' :: rest)) = .ok (.list [], rest) := by
  rw [readValue]
  simp only [Char.reduceEq, if_false, if_true, hws.skip_cons (c := ']') rfl]

/-- A list has items where it does not end at once. -/
theorem readValue_list (hws : Blank ws) (hcs : Begins cs) (fuel : Nat) :
    readValue (fuel + 1) ('[' :: (ws ++ cs)) =
      (readItems fuel cs).map fun p => (.list p.1, p.2) := by
  rw [readValue]
  simp only [Char.reduceEq, if_false, if_true, hws.skip hcs.head]
  obtain ⟨c, ds, rfl, _, hlast, _⟩ := hcs
  split
  · next heq => exact absurd (List.cons.inj heq).1 hlast
  · rfl

theorem readValue_noEntries (hws : Blank ws) (fuel : Nat) (rest : List Char) :
    readValue (fuel + 1) ('\x7b' :: (ws ++ '\x7d' :: rest)) = .ok (.map [], rest) := by
  rw [readValue]
  simp only [Char.reduceEq, if_false, if_true, hws.skip_cons (c := '\x7d') rfl]

/-- An object has entries where it does not end at once. -/
theorem readValue_map (hws : Blank ws) (hcs : Begins cs) (fuel : Nat) :
    readValue (fuel + 1) ('\x7b' :: (ws ++ cs)) =
      (readEntries fuel cs).map fun p => (.map p.1, p.2) := by
  rw [readValue]
  simp only [Char.reduceEq, if_false, if_true, hws.skip hcs.head]
  obtain ⟨c, ds, rfl, _, _, hlast⟩ := hcs
  split
  · next heq => exact absurd (List.cons.inj heq).1 hlast
  · rfl

/-- No word begins with a digit, also after a minus sign. -/
theorem readWord_of_isDigit {c : Char} (hc : c.isDigit = true) (cs : List Char) :
    readWord (c :: cs) = none ∧ readWord ('-' :: c :: cs) = none := by
  have hne := fun d => ne_of_isDigit (d := d) hc
  constructor
  · simp [readWord, words, Text.after?, hne]
  · simp [readWord, words, Text.after?, hne]

/-- Words are tried before numbers, which is no matter for a number. -/
theorem readValue_number {d : Char} (hd : d.isDigit = true) (fuel : Nat) (cs : List Char) :
    readValue (fuel + 1) (d :: cs) = readNumber false (d :: cs) := by
  have hne := fun c hc => (ne_of_isDigit (d := c) hd hc).symm
  rw [readValue]
  simp only [(readWord_of_isDigit hd cs).1, hne '\x22' rfl, hne '\x7b' rfl, hne '[' rfl,
    hne '-' rfl, if_false]

theorem readValue_negative {d : Char} (hd : d.isDigit = true) (fuel : Nat) (cs : List Char) :
    readValue (fuel + 1) ('-' :: d :: cs) = readNumber true (d :: cs) := by
  rw [readValue]
  simp only [(readWord_of_isDigit hd cs).2, Char.reduceEq, if_false, if_true]

/-- A word is read whatever comes after it. -/
theorem readValue_word (h : (cs, v) ∈ words) (fuel : Nat) (rest : List Char) :
    readValue (fuel + 1) (cs ++ rest) = .ok (v, rest) := by
  simp only [words, List.mem_cons, Prod.mk.injEq, List.not_mem_nil, or_false] at h
  rcases h with ⟨rfl, rfl⟩ | ⟨rfl, rfl⟩ | ⟨rfl, rfl⟩ | ⟨rfl, rfl⟩ | ⟨rfl, rfl⟩ | ⟨rfl, rfl⟩ <;> rfl

/-- So is a text, which ends with its quote. -/
theorem SpellsText.readValue {units : List Nat} (h : SpellsText units cs) (fuel : Nat)
    (rest : List Char) : readValue (fuel + 1) (cs ++ rest) = .ok (.text units, rest) := by
  obtain ⟨us, rfl⟩ := h.exists_cons
  rw [List.cons_append, readValue_text, h.readUnits]
  rfl

/-- A number is read on as far as it goes, so it matters what comes after it. -/
theorem SpellsNumber.readValue (h : SpellsNumber false v cs) (hrest : Follows rest) (fuel : Nat) :
    readValue (fuel + 1) (cs ++ rest) = .ok (v, rest) := by
  obtain ⟨d, ds, rfl, hd⟩ := h.exists_cons
  rw [List.cons_append, readValue_number hd]
  exact h.readNumber hrest

theorem SpellsNumber.readValue_negative (h : SpellsNumber true v cs) (hrest : Follows rest)
    (fuel : Nat) : Json.readValue (fuel + 1) ('-' :: (cs ++ rest)) = .ok (v, rest) := by
  obtain ⟨d, ds, rfl, hd⟩ := h.exists_cons
  rw [List.cons_append, readValue_negative hd]
  exact h.readNumber hrest

/-- After the last item the list ends. -/
theorem readItems_last (h : readValue fuel cs = .ok (v, ws ++ ']' :: rest)) (hws : Blank ws) :
    readItems (fuel + 1) cs = .ok ([v], rest) := by
  rw [readItems, h]
  simp only [bind, Except.bind, hws.skip_cons (c := ']') rfl]
  rfl

/-- After a comma there are more items. -/
theorem readItems_cons {ws' : List Char} (h : readValue fuel cs = .ok (v, ws ++ ',' :: (ws' ++ ds)))
    (hws : Blank ws) (hws' : Blank ws') (hds : Begins ds) :
    readItems (fuel + 1) cs = (readItems fuel ds).map fun p => (v :: p.1, p.2) := by
  rw [readItems, h]
  simp only [bind, Except.bind, hws.skip_cons (c := ',') rfl, hws'.skip hds.head]
  cases readItems fuel ds <;> rfl

/-- What is wrong with the first item is wrong with the list. -/
theorem readItems_error {e : ReadError} (h : readValue fuel cs = .error e) :
    readItems (fuel + 1) cs = .error e := by
  rw [readItems, h]
  rfl

/-- An entry with this key from its value on, and the entries that come after it. -/
def readEntry (fuel : Nat) (key : List Nat) (cs : List Char) :
    Except ReadError (List (List Nat × Term) × List Char) := do
  let (v, rest) ← readValue fuel cs
  match skip rest with
  | ',' :: rest =>
    let (es, rest) ← readEntries fuel (skip rest)
    return ((key, v) :: es, rest)
  | '\x7d' :: rest => return ([(key, v)], rest)
  | _ => .error .malformed

/-- A key is read up to where the value begins. -/
theorem SpellsKey.readEntries {key : List Nat} (h : SpellsKey key ds)
    (hcs : ∀ c ∈ cs.head?, isSpace c = false) (fuel : Nat) :
    readEntries (fuel + 1) (ds ++ cs) = readEntry fuel key cs := by
  obtain ⟨text, ws, ws', htext, hws, hws', rfl⟩ := h
  obtain ⟨us, rfl⟩ := htext.exists_cons
  rw [List.append_assoc, List.cons_append, Json.readEntries]
  simp only [htext.readUnits, bind, Except.bind, List.append_assoc, List.cons_append,
    hws.skip_cons (c := ':') rfl, hws'.skip hcs]
  rfl

/-- After the last entry the object ends. -/
theorem readEntries_last {key : List Nat} (hkey : SpellsKey key ds) (hcs : Begins cs)
    (h : readValue fuel cs = .ok (v, ws ++ '\x7d' :: rest)) (hws : Blank ws) :
    readEntries (fuel + 1) (ds ++ cs) = .ok ([(key, v)], rest) := by
  rw [hkey.readEntries hcs.head, readEntry, h]
  simp only [bind, Except.bind, hws.skip_cons (c := '\x7d') rfl]
  rfl

/-- After a comma there are more entries. -/
theorem readEntries_cons {key : List Nat} {ws' es : List Char} (hkey : SpellsKey key ds)
    (hcs : Begins cs) (h : readValue fuel cs = .ok (v, ws ++ ',' :: (ws' ++ es))) (hws : Blank ws)
    (hws' : Blank ws') (hes : Begins es) :
    readEntries (fuel + 1) (ds ++ cs) =
      (readEntries fuel es).map fun p => ((key, v) :: p.1, p.2) := by
  rw [hkey.readEntries hcs.head, readEntry, h]
  simp only [bind, Except.bind, hws.skip_cons (c := ',') rfl, hws'.skip hes.head]
  cases readEntries fuel es <;> rfl

theorem readEntries_error {key : List Nat} {e : ReadError} (hkey : SpellsKey key ds)
    (hcs : Begins cs) (h : readValue fuel cs = .error e) :
    readEntries (fuel + 1) (ds ++ cs) = .error e := by
  rw [hkey.readEntries hcs.head, readEntry, h]
  rfl

/-! ## 3. What follows the grammar is read -/

theorem follows_nil : Follows [] := nofun

/-- White space may come between a value and what may come after it. -/
theorem Blank.follows (hws : Blank ws) (h : Follows rest) : Follows (ws ++ rest) := by
  cases ws with
  | nil => exact h
  | cons c ws =>
    rintro _ ⟨⟩
    exact .inl (hws c List.mem_cons_self)

theorem follows_cons {c : Char} (hc : c ∈ [',', ']', '\x7d']) (cs : List Char) :
    Follows (c :: cs) := by
  rintro _ ⟨⟩
  exact .inr hc

/-- What is written as a part of a document is read as that part, whatever comes after it. -/
def IsRead : Part → List Char → Prop
  | .value v, cs => ∀ rest fuel, Follows rest → 2 * cs.length ≤ fuel →
    readValue fuel (cs ++ rest) = .ok (v, rest)
  | .items xs, cs => ∀ rest fuel, 2 * cs.length < fuel →
    readItems fuel (cs ++ ']' :: rest) = .ok (xs, rest)
  | .entries es, cs => ∀ rest fuel, 2 * cs.length < fuel →
    readEntries fuel (cs ++ '\x7d' :: rest) = .ok (es, rest)

/-- A value is read if it is with one call more than none. -/
theorem isRead_value (hcs : Begins cs) (h : ∀ rest fuel, Follows rest → 2 * cs.length ≤ fuel + 1 →
    readValue (fuel + 1) (cs ++ rest) = .ok (v, rest)) : IsRead (.value v) cs := by
  intro rest fuel hrest hfuel
  cases fuel with
  | zero =>
    obtain ⟨c, ds, rfl, _⟩ := hcs
    exact absurd hfuel (by simp)
  | succ fuel => exact h rest fuel hrest hfuel

/-- Items are read if they are with one call more than none, and so are entries. -/
theorem isRead_items {xs : List Term} (h : ∀ rest fuel, 2 * cs.length ≤ fuel →
    readItems (fuel + 1) (cs ++ ']' :: rest) = .ok (xs, rest)) :
    IsRead (.items xs) cs := by
  intro rest fuel hfuel
  cases fuel with
  | zero => exact absurd hfuel (Nat.not_lt_zero _)
  | succ fuel => exact h rest fuel (Nat.le_of_lt_succ hfuel)

theorem isRead_entries {es : List (List Nat × Term)} (h : ∀ rest fuel, 2 * cs.length ≤ fuel →
    readEntries (fuel + 1) (cs ++ '\x7d' :: rest) = .ok (es, rest)) :
    IsRead (.entries es) cs := by
  intro rest fuel hfuel
  cases fuel with
  | zero => exact absurd hfuel (Nat.not_lt_zero _)
  | succ fuel => exact h rest fuel (Nat.le_of_lt_succ hfuel)

/-- **Whatever follows the grammar is read.** -/
theorem Spells.isRead {part : Part} (h : Spells part cs) : IsRead part cs := by
  induction h with
  | word h =>
    exact isRead_value (Spells.word h).begins fun rest fuel _ _ => readValue_word h fuel rest
  | text h =>
    exact isRead_value (Spells.text h).begins fun rest fuel _ _ => h.readValue fuel rest
  | number h =>
    exact isRead_value (Spells.number h).begins fun _ fuel hrest _ => h.readValue hrest fuel
  | negative h =>
    exact isRead_value (Spells.negative h).begins fun _ fuel hrest _ =>
      h.readValue_negative hrest fuel
  | noItems hws =>
    refine isRead_value (Spells.noItems hws).begins fun rest fuel _ _ => ?_
    simpa using readValue_noItems hws fuel rest
  | list hws h ih =>
    -- The bracket takes one unit of fuel, and leaves two for each character between the brackets.
    refine isRead_value (Spells.list hws h).begins fun rest fuel _ hfuel => ?_
    have hitems := ih rest fuel (by simp at hfuel; omega)
    simp only [List.cons_append, List.append_assoc, List.nil_append]
    rw [readValue_list hws (h.begins.append _), hitems]
    rfl
  | noEntries hws =>
    refine isRead_value (Spells.noEntries hws).begins fun rest fuel _ _ => ?_
    simpa using readValue_noEntries hws fuel rest
  | map hws h ih =>
    refine isRead_value (Spells.map hws h).begins fun rest fuel _ hfuel => ?_
    have hentries := ih rest fuel (by simp at hfuel; omega)
    simp only [List.cons_append, List.append_assoc, List.nil_append]
    rw [readValue_map hws (h.begins.append _), hentries]
    rfl
  | lastItem _ hws ih =>
    refine isRead_items fun rest fuel hfuel => ?_
    rw [List.append_assoc]
    refine readItems_last (ih _ fuel (hws.follows (follows_cons (by decide) _)) ?_) hws
    simp at hfuel
    omega
  | @item _ _ _ ws ws' ds _ hws hws' hxs ih ihs =>
    refine isRead_items fun rest fuel hfuel => ?_
    simp only [List.append_assoc, List.cons_append, List.length_append, List.length_cons] at hfuel ⊢
    have hvalue := ih (ws ++ ',' :: (ws' ++ (ds ++ ']' :: rest))) fuel
      (hws.follows (follows_cons (by decide) _)) (by omega)
    rw [readItems_cons hvalue hws hws' (hxs.begins.append _), ihs rest fuel (by omega)]
    rfl
  | lastEntry hkey hv hws ih =>
    refine isRead_entries fun rest fuel hfuel => ?_
    simp only [List.append_assoc, List.length_append] at hfuel ⊢
    refine readEntries_last hkey (hv.begins.append _)
      (ih _ fuel (hws.follows (follows_cons (by decide) _)) (by omega)) hws
  | @entry _ _ _ _ _ ws ws' ds hkey hv hws hws' hes ih ihs =>
    refine isRead_entries fun rest fuel hfuel => ?_
    simp only [List.append_assoc, List.cons_append, List.length_append, List.length_cons] at hfuel ⊢
    have hvalue := ih (ws ++ ',' :: (ws' ++ (ds ++ '\x7d' :: rest))) fuel
      (hws.follows (follows_cons (by decide) _)) (by omega)
    rw [readEntries_cons hkey (hv.begins.append _) hvalue hws hws' (hes.begins.append _),
      ihs rest fuel (by omega)]
    rfl

/-- What comes to an integer of too many digits is not read because of it. -/
def IsRefused : Expected → List Char → Prop
  | .value, cs => ∀ fuel, 2 * cs.length ≤ fuel → readValue fuel cs = .error .hugeInteger
  | .items, cs => ∀ fuel, 2 * cs.length < fuel → readItems fuel cs = .error .hugeInteger
  | .entries, cs => ∀ fuel, 2 * cs.length < fuel → readEntries fuel cs = .error .hugeInteger

/-- The same with one call more than none, for what is refused. -/
theorem isRefused_value (hcs : Begins cs) (h : ∀ fuel, 2 * cs.length ≤ fuel + 1 →
    readValue (fuel + 1) cs = .error .hugeInteger) : IsRefused .value cs := by
  intro fuel hfuel
  cases fuel with
  | zero =>
    obtain ⟨c, ds, rfl, _⟩ := hcs
    exact absurd hfuel (by simp)
  | succ fuel => exact h fuel hfuel

theorem isRefused_items (h : ∀ fuel, 2 * cs.length ≤ fuel →
    readItems (fuel + 1) cs = .error .hugeInteger) : IsRefused .items cs := by
  intro fuel hfuel
  cases fuel with
  | zero => exact absurd hfuel (Nat.not_lt_zero _)
  | succ fuel => exact h fuel (Nat.le_of_lt_succ hfuel)

theorem isRefused_entries (h : ∀ fuel, 2 * cs.length ≤ fuel →
    readEntries (fuel + 1) cs = .error .hugeInteger) : IsRefused .entries cs := by
  intro fuel hfuel
  cases fuel with
  | zero => exact absurd hfuel (Nat.not_lt_zero _)
  | succ fuel => exact h fuel (Nat.le_of_lt_succ hfuel)

/-- **Whatever follows the grammar up to an integer of too many digits is refused.** -/
theorem Overruns.isRefused {expected : Expected} (h : Overruns expected cs) :
    IsRefused expected cs := by
  induction h with
  | integer h =>
    refine isRefused_value (Overruns.integer h).begins fun fuel _ => ?_
    obtain ⟨d, ds, rfl, hd⟩ := h.exists_cons
    rw [readValue_number hd, readNumber_eq_hugeInteger_iff]
    exact h
  | negative h =>
    refine isRefused_value (Overruns.negative h).begins fun fuel _ => ?_
    obtain ⟨d, ds, rfl, hd⟩ := h.exists_cons
    rw [readValue_negative hd, readNumber_eq_hugeInteger_iff]
    exact h
  | list hws h ih =>
    refine isRefused_value (Overruns.list hws h).begins fun fuel hfuel => ?_
    rw [readValue_list hws h.begins, ih fuel (by simp at hfuel; omega)]
    rfl
  | map hws h ih =>
    refine isRefused_value (Overruns.map hws h).begins fun fuel hfuel => ?_
    rw [readValue_map hws h.begins, ih fuel (by simp at hfuel; omega)]
    rfl
  | inItem _ ih =>
    refine isRefused_items fun fuel hfuel => ?_
    exact readItems_error (ih fuel (by omega))
  | @afterItem _ _ ws ws' ds hx hws hws' h ih =>
    refine isRefused_items fun fuel hfuel => ?_
    simp only [List.length_append, List.length_cons] at hfuel
    have hvalue := hx.isRead (ws ++ ',' :: (ws' ++ ds)) fuel
      (hws.follows (follows_cons (by decide) _)) (by omega)
    rw [readItems_cons hvalue hws hws' h.begins, ih fuel (by omega)]
    rfl
  | inEntry hkey h ih =>
    refine isRefused_entries fun fuel hfuel => ?_
    simp only [List.length_append] at hfuel
    exact readEntries_error hkey h.begins (ih fuel (by omega))
  | @afterEntry _ _ _ _ ws ws' ds hkey hv hws hws' h ih =>
    refine isRefused_entries fun fuel hfuel => ?_
    simp only [List.length_append, List.length_cons] at hfuel
    have hvalue := hv.isRead (ws ++ ',' :: (ws' ++ ds)) fuel
      (hws.follows (follows_cons (by decide) _)) (by omega)
    rw [readEntries_cons hkey (hv.begins.append _) hvalue hws hws' h.begins, ih fuel (by omega)]
    rfl

/-! ## 4. What is read follows the grammar -/

/-- What the reading functions return was written in front of the rest. -/
structure Recognizes (fuel : Nat) : Prop where
  value : ∀ {cs v rest}, readValue fuel cs = .ok (v, rest) →
    ∃ ds, Spells (.value v) ds ∧ cs = ds ++ rest
  items : ∀ {cs xs rest}, readItems fuel cs = .ok (xs, rest) →
    ∃ ds, Spells (.items xs) ds ∧ cs = ds ++ ']' :: rest
  entries : ∀ {cs es rest}, readEntries fuel cs = .ok (es, rest) →
    ∃ ds, Spells (.entries es) ds ∧ cs = ds ++ '\x7d' :: rest

/-- What is read as a word is one of the words. -/
theorem exists_of_readWord (h : readWord cs = some (v, rest)) :
    ∃ word, (word, v) ∈ words ∧ cs = word ++ rest := by
  obtain ⟨⟨word, w⟩, hmem, hword⟩ := List.exists_of_findSome?_eq_some h
  obtain ⟨after, hafter, heq⟩ := Option.map_eq_some_iff.mp hword
  cases heq
  exact ⟨word, hmem, Text.eq_append_of_after? hafter⟩

/-- **What is read as a value was written as one.**  The first character says by which rule. -/
theorem Recognizes.readValue (ih : Recognizes fuel)
    (h : readValue (fuel + 1) cs = .ok (v, rest)) :
    ∃ ds, Spells (.value v) ds ∧ cs = ds ++ rest := by
  cases cs with
  | nil =>
    rw [Json.readValue] at h
    cases h
  | cons c cs =>
    rw [Json.readValue] at h
    split at h
    · next hc =>
      obtain ⟨⟨s, after⟩, hs, heq⟩ := map_eq_ok h
      cases heq
      obtain ⟨us, hus, rfl⟩ := exists_of_readText hs
      exact ⟨_, .text hus, by rw [hc]; rfl⟩
    split at h
    · next hc =>
      obtain ⟨ws, hws, hcs⟩ := exists_skip cs
      split at h
      · next heq =>
        cases h
        rw [hcs, heq, hc]
        exact ⟨_, .noEntries hws, by simp⟩
      · obtain ⟨⟨es, after⟩, hes, heq⟩ := map_eq_ok h
        cases heq
        obtain ⟨ds, hds, heq⟩ := ih.entries hes
        rw [hcs, heq, hc]
        exact ⟨_, .map hws hds, by simp⟩
    split at h
    · next hc =>
      obtain ⟨ws, hws, hcs⟩ := exists_skip cs
      split at h
      · next heq =>
        cases h
        rw [hcs, heq, hc]
        exact ⟨_, .noItems hws, by simp⟩
      · obtain ⟨⟨xs, after⟩, hxs, heq⟩ := map_eq_ok h
        cases heq
        obtain ⟨ds, hds, heq⟩ := ih.items hxs
        rw [hcs, heq, hc]
        exact ⟨_, .list hws hds, by simp⟩
    split at h
    · next hword =>
      cases h
      obtain ⟨word, hmem, heq⟩ := exists_of_readWord hword
      exact ⟨word, .word hmem, heq⟩
    · split at h
      · next hc =>
        obtain ⟨ds, hds, rfl⟩ := exists_of_readNumber h
        exact ⟨_, .negative hds, by rw [hc]; rfl⟩
      · obtain ⟨ds, hds, heq⟩ := exists_of_readNumber h
        exact ⟨ds, .number hds, heq⟩

/-- **What is read as items was written as such.**  After an item there is the end of the list, or a
comma and more items. -/
theorem Recognizes.readItems (ih : Recognizes fuel) {xs : List Term}
    (h : readItems (fuel + 1) cs = .ok (xs, rest)) :
    ∃ ds, Spells (.items xs) ds ∧ cs = ds ++ ']' :: rest := by
  rw [Json.readItems] at h
  -- An item comes first.  What it was written as is known by induction, with less fuel.
  obtain ⟨⟨first, after⟩, hfirst, hmore⟩ := bind_eq_ok h
  obtain ⟨ds, hds, rfl⟩ := ih.value hfirst
  obtain ⟨ws, hws, hafter⟩ := exists_skip after
  simp only at hmore
  split at hmore
  · next after' heq =>
    obtain ⟨⟨others, _⟩, hothers, hend⟩ := bind_eq_ok hmore
    cases hend
    obtain ⟨ws', hws', hafter'⟩ := exists_skip after'
    obtain ⟨ds', hds', heq'⟩ := ih.items hothers
    rw [hafter, heq, hafter', heq']
    exact ⟨_, .item hds hws hws' hds', by simp⟩
  · next heq =>
    cases hmore
    rw [hafter, heq]
    exact ⟨_, .lastItem hds hws, by simp⟩
  · cases hmore

/-- Entries begin with a key and a colon, or they are malformed. -/
theorem exists_key (fuel : Nat) (cs : List Char) : readEntries (fuel + 1) cs = .error .malformed ∨
    ∃ key ds after, SpellsKey key ds ∧ cs = ds ++ after ∧
      ∀ c ∈ after.head?, isSpace c = false := by
  rw [Json.readEntries.eq_def]
  simp only
  split
  · next cs =>
    cases htext : readUnits cs with
    | error e =>
      cases e with
      | malformed => exact .inl rfl
      | hugeInteger => exact absurd htext (readUnits_ne_hugeInteger cs)
    | ok p =>
      obtain ⟨us, hus, hcs⟩ := exists_of_readText htext
      obtain ⟨ws, hws, hafter⟩ := exists_skip p.2
      cases hskip : skip p.2 with
      | nil => exact .inl (by simp [bind, Except.bind, hskip])
      | cons c after =>
        by_cases hcolon : c = ':'
        · subst hcolon
          obtain ⟨ws', hws', hafter'⟩ := exists_skip after
          have hall : cs = us ++ (ws ++ ':' :: (ws' ++ skip after)) := by
            rw [← hafter', ← hskip, ← hafter, hcs]
          refine .inr ⟨p.1, _, skip after, ⟨_, ws, ws', hus, hws, hws', rfl⟩, ?_, head_skip after⟩
          simpa using hall
        · exact .inl (by simp [bind, Except.bind, hskip, hcolon])
  · exact .inl rfl

/-- **What is read as entries was written as such.** -/
theorem Recognizes.readEntries (ih : Recognizes fuel) {es : List (List Nat × Term)}
    (h : readEntries (fuel + 1) cs = .ok (es, rest)) :
    ∃ ds, Spells (.entries es) ds ∧ cs = ds ++ '\x7d' :: rest := by
  rcases exists_key fuel cs with hmalformed | ⟨key, ks, after, hkey, rfl, hhead⟩
  · cases h.symm.trans hmalformed
  rw [hkey.readEntries hhead, readEntry] at h
  -- Key and colon are there.  What the value was written as is known by induction.
  obtain ⟨⟨v, after'⟩, hv, hmore⟩ := bind_eq_ok h
  obtain ⟨ds, hds, rfl⟩ := ih.value hv
  obtain ⟨ws, hws, hafter⟩ := exists_skip after'
  simp only at hmore
  split at hmore
  · next others heq =>
    obtain ⟨⟨es', _⟩, hes, hend⟩ := bind_eq_ok hmore
    cases hend
    obtain ⟨ws', hws', hothers⟩ := exists_skip others
    obtain ⟨ds', hds', heq'⟩ := ih.entries hes
    rw [hafter, heq, hothers, heq']
    exact ⟨_, .entry hkey hds hws hws' hds', by simp⟩
  · next heq =>
    cases hmore
    rw [hafter, heq]
    exact ⟨_, .lastEntry hkey hds hws, by simp⟩
  · cases hmore

/-- **What is read follows the grammar**, with any amount of fuel. -/
theorem recognizes (fuel : Nat) : Recognizes fuel := by
  induction fuel with
  | zero => exact ⟨nofun, nofun, nofun⟩
  | succ fuel ih => exact ⟨ih.readValue, ih.readItems, ih.readEntries⟩

/-- What the reading functions refuse for an integer comes to one of too many digits. -/
structure Refuses (fuel : Nat) : Prop where
  value : ∀ {cs}, readValue fuel cs = .error .hugeInteger → Overruns .value cs
  items : ∀ {cs}, readItems fuel cs = .error .hugeInteger → Overruns .items cs
  entries : ∀ {cs}, readEntries fuel cs = .error .hugeInteger → Overruns .entries cs

/-- A value is refused for the digits of a number, an item or an entry. -/
theorem Refuses.readValue (ih : Refuses fuel) (h : readValue (fuel + 1) cs = .error .hugeInteger) :
    Overruns .value cs := by
  cases cs with
  | nil =>
    rw [Json.readValue] at h
    cases h
  | cons c cs =>
    rw [Json.readValue] at h
    split at h
    · exact absurd (map_eq_error h) (readUnits_ne_hugeInteger cs)
    split at h
    · next hc =>
      obtain ⟨ws, hws, hcs⟩ := exists_skip cs
      split at h
      · cases h
      · rw [hc, hcs]
        exact .map hws (ih.entries (map_eq_error h))
    split at h
    · next hc =>
      obtain ⟨ws, hws, hcs⟩ := exists_skip cs
      split at h
      · cases h
      · rw [hc, hcs]
        exact .list hws (ih.items (map_eq_error h))
    split at h
    · cases h
    · split at h
      · next hc =>
        rw [hc]
        exact .negative (readNumber_eq_hugeInteger_iff.mp h)
      · exact .integer (readNumber_eq_hugeInteger_iff.mp h)

/-- Items are refused for the first one, or for a later one after those that were read. -/
theorem Refuses.readItems (ih : Refuses fuel) (h : readItems (fuel + 1) cs = .error .hugeInteger) :
    Overruns .items cs := by
  rw [Json.readItems] at h
  rcases bind_eq_error h with hfirst | ⟨⟨first, after⟩, hfirst, hmore⟩
  -- Otherwise the first item was read, and so written, and the integer is in what comes after it.
  · exact .inItem (ih.value hfirst)
  obtain ⟨ds, hds, rfl⟩ := (recognizes fuel).value hfirst
  obtain ⟨ws, hws, hafter⟩ := exists_skip after
  simp only at hmore
  split at hmore
  · next after' heq =>
    rcases bind_eq_error hmore with hothers | ⟨_, _, hend⟩
    · obtain ⟨ws', hws', hafter'⟩ := exists_skip after'
      rw [hafter, heq, hafter']
      exact .afterItem hds hws hws' (ih.items hothers)
    · cases hend
  · cases hmore
  · cases hmore

/-- And entries likewise. -/
theorem Refuses.readEntries (ih : Refuses fuel)
    (h : readEntries (fuel + 1) cs = .error .hugeInteger) : Overruns .entries cs := by
  rcases exists_key fuel cs with hmalformed | ⟨key, ks, after, hkey, rfl, hhead⟩
  · cases h.symm.trans hmalformed
  rw [hkey.readEntries hhead, readEntry] at h
  rcases bind_eq_error h with hv | ⟨⟨v, after'⟩, hv, hmore⟩
  -- Otherwise the value was read, and the integer is in a later entry.
  · exact .inEntry hkey (ih.value hv)
  obtain ⟨ds, hds, rfl⟩ := (recognizes fuel).value hv
  obtain ⟨ws, hws, hafter⟩ := exists_skip after'
  simp only at hmore
  split at hmore
  · next others heq =>
    rcases bind_eq_error hmore with hes | ⟨_, _, hend⟩
    · obtain ⟨ws', hws', hothers⟩ := exists_skip others
      rw [hafter, heq, hothers]
      exact .afterEntry hkey hds hws hws' (ih.entries hes)
    · cases hend
  · cases hmore
  · cases hmore

/-- **What is refused for its digits follows the grammar up to an integer**, with any amount of
fuel. -/
theorem refuses (fuel : Nat) : Refuses fuel := by
  induction fuel with
  | zero => exact ⟨nofun, nofun, nofun⟩
  | succ fuel ih => exact ⟨ih.readValue, ih.readItems, ih.readEntries⟩

/-! ## 5. Whole texts -/

/-- What a document is read as, before a value is made of it.  The fuel for a whole text is more
than its value can take. -/
theorem readTerm_eq_ok_iff {s : String} : readTerm s = .ok v ↔ SpellsTerm v s.toList := by
  constructor
  · intro h
    obtain ⟨⟨w, rest⟩, hw, hend⟩ := bind_eq_ok h
    obtain ⟨ws, hws, hs⟩ := exists_skip s.toList
    obtain ⟨ws', hws', hrest⟩ := exists_skip rest
    obtain ⟨ds, hds, hskip⟩ := (recognizes _).value hw
    simp only at hend
    split at hend
    · next hnil =>
      cases hend
      rw [hnil, List.append_nil] at hrest
      exact ⟨ws, ds, rest, hws, hds, hrest ▸ hws', by rw [← hskip, ← hs]⟩
    · cases hend
  · rintro ⟨ws, ds, ws', hws, hds, hws', hs⟩
    have hfollows : Follows ws' := List.append_nil ws' ▸ hws'.follows follows_nil
    have hvalue := hds.isRead ws' (2 * s.toList.length + 2) hfollows (by
      rw [hs]
      simp only [List.length_append]
      omega)
    have hskip : skip s.toList = ds ++ ws' := by rw [hs, hws.skip (hds.begins.append _).head]
    simp only [readTerm, hskip, hvalue, bind, Except.bind, hws'.skip_nil]
    rfl

/-- And when nothing is read for the digits of an integer. -/
theorem readTerm_eq_hugeInteger_iff {s : String} :
    readTerm s = .error .hugeInteger ↔ Overlong s.toList := by
  constructor
  · intro h
    obtain ⟨ws, hws, hs⟩ := exists_skip s.toList
    rcases bind_eq_error h with hv | ⟨⟨v, rest⟩, _, hend⟩
    · exact ⟨ws, _, hws, (refuses _).value hv, hs⟩
    · simp only at hend
      split at hend
      · cases hend
      · cases hend
  · rintro ⟨ws, ds, hws, hds, hs⟩
    have hvalue := hds.isRefused (2 * s.toList.length + 2) (by
      rw [hs]
      simp only [List.length_append]
      omega)
    have hskip : skip s.toList = ds := by rw [hs, hws.skip hds.begins.head]
    simp only [readTerm, hskip, hvalue, bind, Except.bind]

/-- **What a text is read as**: the value that it holds as a document. -/
theorem read_eq_ok_iff {s : String} {value : Value} :
    read s = .ok value ↔ SpellsDocument value s.toList := by
  constructor
  · intro h
    obtain ⟨term, hterm, hvalue⟩ := exists_of_read h
    exact ⟨term, readTerm_eq_ok_iff.mp hterm, hvalue⟩
  · rintro ⟨term, hterm, hvalue⟩
    simp only [read, readTerm_eq_ok_iff.mpr hterm, hvalue]

/-- **When an integer is in the way**: the text begins as a document does and comes to an integer of
too many digits. -/
theorem read_eq_hugeInteger_iff {s : String} :
    read s = .error .hugeInteger ↔ Overlong s.toList := by
  rw [← readTerm_eq_hugeInteger_iff]
  refine ⟨fun h => ?_, fun h => by simp only [read, h]⟩
  unfold read at h
  split at h
  · split at h
    · cases h
    · cases h
  · cases h
  · assumption

/-- **When half a character is in the way**: the text is a document, and in it a half stands
alone. -/
theorem read_eq_loneHalf_iff {s : String} : read s = .error .loneHalf ↔ IsBroken s.toList := by
  constructor
  · intro h
    unfold read at h
    split at h
    · next term hterm =>
      split at h
      · cases h
      · next hvalue => exact ⟨term, readTerm_eq_ok_iff.mp hterm, hvalue⟩
    · cases h
    · cases h
  · rintro ⟨term, hterm, hvalue⟩
    simp only [read, readTerm_eq_ok_iff.mpr hterm, hvalue]

end Ancestry.Json
