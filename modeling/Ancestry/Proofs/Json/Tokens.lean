import Ancestry.Proofs.Json.Grammar
import Ancestry.Proofs.Json.Tree

/-!
# Texts and numbers are read as the grammar says

Of each reading function that returns no part of a document there are two lemmas: what follows the
grammar is read, up to where it ends, and what is read followed the grammar.  Where a text ends is
written in it; where a number ends is known from what comes next, and after a value nothing comes
that would go on with a number (`Follows`).
-/

namespace Ancestry.Json

open Text (IsDigits dropWhile_run exists_run exists_takeSign head_dropWhile isDigits_takeWhile
  maxDigits natOfDigits signed takeSign takeSign_append takeWhile_run)

variable {cs ds ws rest : List Char}

/-! ## 1. White space -/

theorem blank_nil : Blank [] := nofun

/-- White space is skipped up to where it ends. -/
theorem Blank.skip (hws : Blank ws) (h : ∀ c ∈ cs.head?, isSpace c = false) :
    skip (ws ++ cs) = cs := dropWhile_run hws h

/-- At the end of a document nothing is left after its white space. -/
theorem Blank.skip_nil (hws : Blank ws) : Json.skip ws = [] :=
  (congrArg Json.skip (List.append_nil ws).symm).trans (hws.skip nofun)

theorem Blank.skip_cons {c : Char} (hws : Blank ws) (hc : isSpace c = false) (cs : List Char) :
    Json.skip (ws ++ c :: cs) = c :: cs :=
  hws.skip (by rintro _ ⟨⟩; exact hc)

/-- What is skipped is white space. -/
theorem exists_skip (cs : List Char) : ∃ ws, Blank ws ∧ cs = ws ++ Json.skip cs :=
  exists_run isSpace cs

theorem head_skip (cs : List Char) : ∀ c ∈ (Json.skip cs).head?, isSpace c = false :=
  head_dropWhile isSpace cs

/-! ## 2. Texts -/

/-- A unit is read, and then the rest is. -/
theorem SpellsUnit.readUnits {n : Nat} (h : SpellsUnit n cs) (rest : List Char) :
    readUnits (cs ++ rest) = (readUnits rest).map fun p => (n :: p.1, p.2) := by
  cases h with
  | @itself c hquote hslash hcontrol =>
    rw [List.singleton_append, Json.readUnits.eq_def]
    simp only [hquote, hslash, if_false, Nat.not_lt.mpr hcontrol]
  | @letter e c h =>
    -- No letter that stands for a character begins a number.
    have hu : e ≠ 'u' := by
      rintro rfl
      cases h
    rw [List.cons_append, Json.readUnits.eq_def]
    simp [h, hu]
  | number h =>
    rw [List.cons_append, Json.readUnits.eq_def]
    simp [h]

/-- Units are read up to the closing quote, which is no unit. -/
theorem SpellsUnits.readUnits {ns : List Nat} (h : SpellsUnits ns ds) (rest : List Char) :
    Json.readUnits (ds ++ '\x22' :: rest) = .ok (ns, rest) := by
  induction h with
  | nil =>
    rw [Json.readUnits.eq_def]
    rfl
  | cons hn _ ih => rw [List.append_assoc, hn.readUnits, ih]; rfl

/-- One step of `exists_of_readUnits`: a unit was written in front of what the induction speaks
of. -/
theorem SpellsUnit.exists_cons {n : Nat} {ns : List Nat} (hn : SpellsUnit n cs)
    (ih : ∀ {ns : List Nat}, Json.readUnits ds = .ok (ns, rest) →
      ∃ us, SpellsUnits ns us ∧ ds = us ++ '\x22' :: rest)
    (h : ((Json.readUnits ds).map fun p => (n :: p.1, p.2)) = .ok (ns, rest)) :
    ∃ us, SpellsUnits ns us ∧ cs ++ ds = us ++ '\x22' :: rest := by
  obtain ⟨⟨ns', rest'⟩, hread, heq⟩ := map_eq_ok h
  cases heq
  obtain ⟨us, hus, rfl⟩ := ih hread
  exact ⟨cs ++ us, .cons hn hus, (List.append_assoc _ _ _).symm⟩

/-- What is read as units is spelled so, with the rest after the closing quote. -/
theorem exists_of_readUnits {ns : List Nat} (h : readUnits cs = .ok (ns, rest)) :
    ∃ us, SpellsUnits ns us ∧ cs = us ++ '\x22' :: rest := by
  fun_induction readUnits cs generalizing ns with
  | case2 => cases h; exact ⟨[], .nil, rfl⟩
  | case4 _ _ _ _ _ _ hunit _ ih => exact (SpellsUnit.number hunit).exists_cons ih h
  | case7 _ _ _ _ hletter _ ih => exact (SpellsUnit.letter hletter).exists_cons ih h
  | case10 _ _ hquote hslash hcontrol ih =>
    exact (SpellsUnit.itself hquote hslash (Nat.not_lt.mp hcontrol)).exists_cons ih h
  | _ => cases h

/-- **A text is read as the grammar says.** -/
theorem SpellsText.readUnits {ns : List Nat} (h : SpellsText ns ('\x22' :: cs)) (rest : List Char) :
    readUnits (cs ++ rest) = .ok (ns, rest) := by
  obtain ⟨us, hus, heq⟩ := h
  cases heq
  rw [List.append_assoc, List.singleton_append, hus.readUnits]

/-- The reader of values looks for the opening quote, and for nothing else, to read a text. -/
theorem SpellsText.exists_cons {ns : List Nat} (h : SpellsText ns cs) :
    ∃ us, cs = '\x22' :: us := by
  obtain ⟨_, _, rfl⟩ := h
  exact ⟨_, rfl⟩

/-- **What is read as a text was written as one.** -/
theorem exists_of_readText {ns : List Nat} (h : readUnits cs = .ok (ns, rest)) :
    ∃ us, SpellsText ns ('\x22' :: us) ∧ cs = us ++ rest := by
  obtain ⟨us, hus, rfl⟩ := exists_of_readUnits h
  exact ⟨us ++ ['\x22'], ⟨us, hus, rfl⟩, by simp⟩

/-- A text that is not read does not follow the grammar. -/
theorem readUnits_ne_hugeInteger (cs : List Char) : readUnits cs ≠ .error .hugeInteger := by
  have hmap : ∀ {n ds}, readUnits ds ≠ .error .hugeInteger →
      ((readUnits ds).map fun p : List Nat × List Char => (n :: p.1, p.2)) ≠
        .error .hugeInteger := by
    intro n ds ih h
    cases hread : readUnits ds with
    | error e =>
      rw [hread] at h
      exact ih (by rw [hread]; exact h)
    | ok p =>
      rw [hread] at h
      cases h
  fun_induction readUnits cs with
  | case4 _ _ _ _ _ _ _ _ ih => exact hmap ih
  | case7 _ _ _ _ _ _ ih => exact hmap ih
  | case10 _ _ _ _ _ ih => exact hmap ih
  | _ => exact nofun

/-! ## 3. Numbers -/

/-- What may come after a value: nothing, white space, a comma or the end of a list or an object. -/
def Follows (rest : List Char) : Prop := ∀ c ∈ rest.head?, isSpace c = true ∨ c ∈ [',', ']', '\x7d']

/-- None of what may come after a value goes on with a number. -/
theorem Follows.head (h : Follows rest) : ∀ c ∈ rest.head?,
    c.isDigit = false ∧ c ≠ '.' ∧ c ≠ 'e' ∧ c ≠ 'E' := by
  intro c hc
  have hcases := h c hc
  simp only [isSpace, Bool.or_eq_true, decide_eq_true_eq, List.mem_cons, List.not_mem_nil,
    or_false] at hcases
  rcases hcases with (((rfl | rfl) | rfl) | rfl) | rfl | rfl | rfl <;> decide

/-- The digits in front of a fraction are read as far as they go. -/
theorem IsWhole.wholePart (h : IsWhole ds) (hrest : ∀ c ∈ rest.head?, c.isDigit = false) :
    wholePart (ds ++ rest) = some (ds, rest) := by
  rcases h with rfl | ⟨hds, hzero⟩
  · rfl
  · obtain ⟨d, ds, rfl, hd, hall⟩ := hds.exists_cons
    have hd0 : d ≠ '0' := fun h => hzero (congrArg some h)
    simp only [List.cons_append, Json.wholePart, hd0, hd, if_false, if_true,
      takeWhile_run hall hrest, dropWhile_run hall hrest]

/-- What is read as such are digits with no zero in front.  After a zero alone there may be a digit,
which is left for others to complain about. -/
theorem exists_of_wholePart (h : wholePart cs = some (ds, rest)) :
    IsWhole ds ∧ cs = ds ++ rest ∧ (ds.length ≠ 1 → ∀ c ∈ rest.head?, c.isDigit = false) := by
  unfold Json.wholePart at h
  split at h
  · cases h
  · split at h
    · next c cs hzero =>
      cases h
      exact ⟨.inl rfl, by rw [hzero]; rfl, fun hne => absurd rfl hne⟩
    · split at h
      · next c cs hzero hc =>
        cases h
        refine ⟨.inr ⟨isDigits_takeWhile hc cs, fun heq => hzero (Option.some.inj heq)⟩, ?_,
          fun _ => head_dropWhile _ cs⟩
        simp
      · cases h

/-- A fraction is read if it is there, and none is read if none is. -/
theorem SpellsFraction.fractionPart {fs fraction : List Char} (h : SpellsFraction fs fraction)
    (hrest : ∀ c ∈ rest.head?, c.isDigit = false ∧ c ≠ '.') :
    fractionPart (fraction ++ rest) = (fs, rest) := by
  cases h with
  | none =>
    unfold Json.fractionPart
    split
    · next heq =>
      rw [List.nil_append] at heq
      exact absurd rfl (hrest '.' (by rw [heq]; rfl)).2
    · rfl
  | some hds =>
    obtain ⟨d, ds, rfl, hd, hall⟩ := hds.exists_cons
    have hend : ∀ c ∈ rest.head?, c.isDigit = false := fun c hc => (hrest c hc).1
    simp only [List.cons_append, Json.fractionPart, hd, if_true, takeWhile_run hall hend,
      dropWhile_run hall hend]

/-- What is read as a fraction was written as one, or nothing was. -/
theorem exists_of_fractionPart (h : fractionPart cs = (ds, rest)) :
    ∃ fraction, SpellsFraction ds fraction ∧ cs = fraction ++ rest := by
  unfold Json.fractionPart at h
  split at h
  · next c cs =>
    split at h
    · next hc => cases h; exact ⟨_, .some (isDigits_takeWhile hc cs), by simp⟩
    · cases h; exact ⟨[], .none, rfl⟩
  · cases h; exact ⟨[], .none, rfl⟩

/-- The reader of exponents without its last case, which differs from the one before in nothing. -/
theorem exponentPart_cons (e : Char) (cs : List Char) : exponentPart (e :: cs) =
    if e = 'e' || e = 'E' then
      match (takeSign cs).2.takeWhile Char.isDigit with
      | [] => (none, e :: cs)
      | ds => (some (signed (takeSign cs).1 (natOfDigits ds)),
        (takeSign cs).2.dropWhile Char.isDigit)
    else (none, e :: cs) := rfl

/-- An exponent is read if it is there, and none is read if none is. -/
theorem SpellsExponent.exponentPart {e : Option Int} {exponent : List Char}
    (h : SpellsExponent e exponent)
    (hrest : ∀ c ∈ rest.head?, c.isDigit = false ∧ c ≠ 'e' ∧ c ≠ 'E') :
    exponentPart (exponent ++ rest) = (e, rest) := by
  cases h with
  | none =>
    cases rest with
    | nil => rfl
    | cons c cs => simp [Json.exponentPart, hrest c rfl]
  | @some e sign ds negative he hsign hds =>
    have hend : ∀ c ∈ rest.head?, c.isDigit = false := fun c hc => (hrest c hc).1
    have he' : (e = 'e' || e = 'E') = true := by simpa using he
    rw [List.cons_append, List.append_assoc, exponentPart_cons, takeSign_append hsign (hds.head _),
      if_pos he']
    simp only [takeWhile_run hds.2 hend, dropWhile_run hds.2 hend]
    split
    · exact absurd rfl hds.1
    · rfl

/-- What is read as an exponent was written as one, or nothing was: a letter without digits behind
it is not part of the number. -/
theorem exists_of_exponentPart {e : Option Int} (h : exponentPart cs = (e, rest)) :
    ∃ exponent, SpellsExponent e exponent ∧ cs = exponent ++ rest := by
  cases cs with
  | nil => cases h; exact ⟨[], .none, rfl⟩
  | cons c cs =>
    rw [exponentPart_cons] at h
    split at h
    · next he =>
      obtain ⟨sign, hsign, hcs⟩ := exists_takeSign cs
      split at h
      · cases h; exact ⟨[], .none, rfl⟩
      · next hne =>
        cases h
        refine ⟨_, .some (by simpa using he) hsign ⟨hne, fun _ => Text.mem_takeWhile⟩, ?_⟩
        simp only [List.cons_append, List.append_assoc, List.takeWhile_append_dropWhile, ← hcs]
    · cases h; exact ⟨[], .none, rfl⟩

/-- An exponent goes on neither with the digits in front of it nor with a fraction, and neither does
what comes after a number. -/
theorem SpellsExponent.head {e : Option Int} {exponent : List Char} (h : SpellsExponent e exponent)
    (hrest : Follows rest) : ∀ c ∈ (exponent ++ rest).head?, c.isDigit = false ∧ c ≠ '.' := by
  cases h with
  | none => exact fun c hc => ⟨(hrest.head c hc).1, (hrest.head c hc).2.1⟩
  | some he =>
    rintro c ⟨⟩
    rcases he with rfl | rfl <;> decide

/-- And a fraction does not go on with the digits in front of it. -/
theorem SpellsFraction.head {fs fraction : List Char} (h : SpellsFraction fs fraction)
    (hrest : ∀ c ∈ rest.head?, c.isDigit = false) :
    ∀ c ∈ (fraction ++ rest).head?, c.isDigit = false := by
  cases h with
  | none => exact hrest
  | some hds =>
    rintro c ⟨⟩
    rfl

/-- Only nothing spells no fraction, and no exponent. -/
theorem SpellsFraction.eq_nil {fraction : List Char} (h : SpellsFraction [] fraction) :
    fraction = [] := by
  cases h with
  | none => rfl
  | some hds => exact absurd rfl hds.1

theorem SpellsExponent.eq_nil {exponent : List Char} (h : SpellsExponent Option.none exponent) :
    exponent = [] := by
  cases h
  rfl

/-- **A number is read as the grammar says.** -/
theorem SpellsNumber.readNumber {negative : Bool} {v : Term} (h : SpellsNumber negative v cs)
    (hrest : Follows rest) : readNumber negative (cs ++ rest) = .ok (v, rest) := by
  -- After an integer neither a fraction nor an exponent is read, since what comes next begins none.
  have hnone : fractionPart rest = ([], rest) ∧ exponentPart rest = (none, rest) :=
    ⟨SpellsFraction.none.fractionPart (SpellsExponent.none.head hrest),
      SpellsExponent.none.exponentPart fun c hc =>
        ⟨(hrest.head c hc).1, (hrest.head c hc).2.2⟩⟩
  cases h with
  | integer hds hfew =>
    simp only [Json.readNumber, hds.wholePart fun c hc => (hrest.head c hc).1, hnone,
      Nat.not_lt.mpr hfew]
    rfl
  | decimal hds hfs he hmore =>
    -- From the end to the beginning: each part ends where the next one begins.
    have hexponent := he.exponentPart fun c hc => ⟨(hrest.head c hc).1, (hrest.head c hc).2.2⟩
    have hfraction := hfs.fractionPart (he.head hrest)
    have hwhole := hds.wholePart (hfs.head fun c hc => (he.head hrest c hc).1)
    simp only [Json.readNumber, List.append_assoc, hwhole, hfraction, hexponent]
    rw [if_neg]
    simpa [imp_iff_not_or] using hmore

/-- **What is read as a number was written as one.** -/
theorem exists_of_readNumber {negative : Bool} {v : Term}
    (h : readNumber negative cs = .ok (v, rest)) :
    ∃ ds, SpellsNumber negative v ds ∧ cs = ds ++ rest := by
  unfold Json.readNumber at h
  split at h
  · cases h
  · next whole afterWhole hwhole =>
    obtain ⟨hds, rfl, _⟩ := exists_of_wholePart hwhole
    rcases hfraction : fractionPart afterWhole with ⟨fs, afterFraction⟩
    rcases hexponent : exponentPart afterFraction with ⟨e, rest'⟩
    obtain ⟨fraction, hfs, rfl⟩ := exists_of_fractionPart hfraction
    obtain ⟨exponent, he, rfl⟩ := exists_of_exponentPart hexponent
    simp only [hfraction, hexponent] at h
    split at h
    · next hnone =>
      rw [Bool.and_eq_true, List.isEmpty_iff, Option.isNone_iff_eq_none] at hnone
      obtain ⟨rfl, rfl⟩ := hnone
      split at h
      · cases h
      · next hfew =>
        cases h
        refine ⟨whole, .integer hds (Nat.not_lt.mp hfew), ?_⟩
        rw [hfs.eq_nil, he.eq_nil]
        rfl
    · next hmore =>
      cases h
      refine ⟨_, .decimal hds hfs he ?_, by simp⟩
      simpa [imp_iff_not_or] using hmore

/-- A number goes on exactly if a digit comes next, or a fraction or an exponent is read. -/
theorem goesOn_iff : GoesOn cs ↔ (∃ c ∈ cs.head?, c.isDigit = true) ∨
    fractionPart cs ≠ ([], cs) ∨ exponentPart cs ≠ (none, cs) := by
  constructor
  · intro h
    cases h with
    | digit hc => exact .inl ⟨_, rfl, hc⟩
    | @fraction ds cs hds =>
      obtain ⟨d, ds, rfl, hd, _⟩ := hds.exists_cons
      exact .inr (.inl (by simp [fractionPart, hd]))
    | exponent h =>
      cases h with
      | @some e sign ds negative he hsign hds =>
        have he' : (e = 'e' || e = 'E') = true := by simpa using he
        refine .inr (.inr ?_)
        rw [List.cons_append, List.append_assoc, exponentPart_cons,
          takeSign_append hsign (hds.head _), if_pos he']
        obtain ⟨d, ds, rfl, hd, _⟩ := hds.exists_cons
        simp [hd]
  · rintro (⟨c, hc, hdigit⟩ | h | h)
    · cases cs with
      | nil => cases hc
      | cons c cs => cases hc; exact .digit hdigit
    · rcases hfraction : fractionPart cs with ⟨fs, rest⟩
      obtain ⟨fraction, hfs, rfl⟩ := exists_of_fractionPart hfraction
      cases hfs with
      | none => exact absurd hfraction h
      | some hds => exact .fraction hds
    · rcases hexponent : exponentPart cs with ⟨e, rest⟩
      obtain ⟨exponent, he, rfl⟩ := exists_of_exponentPart hexponent
      cases e with
      | none => rw [he.eq_nil] at hexponent h; exact absurd hexponent h
      | some n => exact .exponent he

/-- **A number is not read for its digits exactly if it is an integer and has too many of them.** -/
theorem readNumber_eq_hugeInteger_iff {negative : Bool} :
    readNumber negative cs = .error .hugeInteger ↔ LongInteger cs := by
  constructor
  · intro h
    unfold Json.readNumber at h
    split at h
    · cases h
    · next whole afterWhole hwhole =>
      obtain ⟨hds, rfl, hend⟩ := exists_of_wholePart hwhole
      rcases hfraction : fractionPart afterWhole with ⟨fs, afterFraction⟩
      rcases hexponent : exponentPart afterFraction with ⟨e, rest⟩
      simp only [hfraction, hexponent] at h
      split at h
      · next hnone =>
        rw [Bool.and_eq_true, List.isEmpty_iff, Option.isNone_iff_eq_none] at hnone
        obtain ⟨rfl, rfl⟩ := hnone
        split at h
        · next hmany =>
          refine ⟨whole, afterWhole, hds, hmany, fun hgoes => ?_, rfl⟩
          -- If the number went on, a digit would be there, a fraction or an exponent, and the
          -- reader would have taken it.
          obtain ⟨fraction, hfs, rfl⟩ := exists_of_fractionPart hfraction
          obtain ⟨exponent, he, rfl⟩ := exists_of_exponentPart hexponent
          cases hfs.eq_nil
          cases he.eq_nil
          rcases goesOn_iff.mp hgoes with ⟨c, hc, hdigit⟩ | hne | hne
          · have hlong : whole.length ≠ 1 := fun heq => absurd hmany (by rw [heq]; decide)
            exact absurd hdigit (by simp [hend hlong c hc])
          · exact hne hfraction
          · exact hne hexponent
        · cases h
      · cases h
  · rintro ⟨ds, rest, hds, hmany, hstop, rfl⟩
    rw [goesOn_iff, not_or, not_or, not_not, not_not] at hstop
    obtain ⟨hdigit, hfraction, hexponent⟩ := hstop
    have hwhole := hds.wholePart fun c hc =>
      Bool.eq_false_iff.mpr fun hd => hdigit ⟨c, hc, hd⟩
    simp only [readNumber, hwhole, hfraction, hexponent, hmany]
    rfl

end Ancestry.Json
