import Ancestry.Proofs.Toml.Moments
import Ancestry.Proofs.Toml.Numbers
import Ancestry.Proofs.Toml.Tokens

/-!
# Scalars are read as the grammar says

A scalar is tried as a truth value, as a date, as a time, as an integer of another base, as a
decimal number and as a word, in this order.  So that what is written as one of them is read as
such, no kind tried before may take its beginning: a date and a time have a hyphen or a colon after
their first digits, and after the digits of a number neither comes, since only a gap, a comma or a
bracket comes after a value (`Follows`).

An integer of too many digits is found whatever comes after it, as it is longer than the first part
of a date.
-/

namespace Ancestry.Toml

open Text (after? ne_of_isDigit signs)

variable {cs ds us rest : List Char} {v : Value} {count n : Nat}

/-! ## 1. What comes after a value -/

/-- What may come after a value: blanks, and then the end of its line, a comma or a bracket. -/
def Follows (rest : List Char) : Prop :=
  ∃ ws after, Blanks ws ∧ rest = ws ++ after ∧ ∀ c ∈ after.head?, c ∈ ['\n', '#', ',', ']', '\x7d']

/-- No blank need be there: the end of the line, a comma or a bracket may come at once. -/
theorem follows_of_head (h : ∀ c ∈ rest.head?, c ∈ ['\n', '#', ',', ']', '\x7d']) : Follows rest :=
  ⟨[], rest, blanks_nil, rfl, h⟩

/-- What comes first after a value is a blank or one of the others. -/
theorem Follows.head (h : Follows rest) : ∀ c ∈ rest.head?, c ∈ followers := by
  obtain ⟨ws, after, hws, rfl, hafter⟩ := h
  cases ws with
  | nil => exact fun c hc => List.mem_cons_of_mem _ (List.mem_cons_of_mem _ (hafter c hc))
  | cons c ws =>
    rintro _ ⟨⟩
    have hc := hws c List.mem_cons_self
    simp only [isBlank, Bool.or_eq_true, decide_eq_true_eq] at hc
    rcases hc with rfl | rfl <;> decide

/-- A blank after a value may be passed over. -/
theorem Follows.of_cons {c : Char} (h : Follows (c :: rest)) (hc : isBlank c = true) :
    Follows rest := by
  obtain ⟨ws, after, hws, heq, hafter⟩ := h
  cases ws with
  | nil =>
    have hmem := hafter c (by rw [List.nil_append] at heq; rw [← heq]; rfl)
    simp only [isBlank, Bool.or_eq_true, decide_eq_true_eq] at hc
    rcases hc with rfl | rfl <;> cases hmem <;> contradiction
  | cons d ws =>
    cases heq
    exact ⟨ws, after, (List.forall_mem_cons.mp hws).2, rfl, hafter⟩

/-- What holds of the few characters that may come after a value holds of the one that does. -/
theorem Follows.of_followers {p : Char → Prop} (h : Follows rest)
    (hp : p ' ' ∧ p '\t' ∧ p '\n' ∧ p '#' ∧ p ',' ∧ p ']' ∧ p '\x7d') : ∀ c ∈ rest.head?, p c :=
  fun c hc => forall_followers.mpr hp c (h.head c hc)

/-- In particular a number ends where a value ends. -/
theorem Follows.endsNumber (h : Follows rest) : EndsNumber rest := h.of_followers (by decide)

/-! ## 2. What is no date and no time -/

theorem fixedDigits?_of_head (h : ∀ c ∈ cs.head?, c.isDigit = false) (hcount : 0 < count) :
    fixedDigits? count cs = none := by
  cases cs with
  | nil => simp [fixedDigits?, Nat.ne_of_lt hcount]
  | cons c cs =>
    have hlen : ([] : List Char).length < count := hcount
    exact fixedDigits?_eq_none hlen (h c rfl) cs

/-- What does not begin with a digit is no date and no time. -/
theorem clock?_of_head (h : ∀ c ∈ cs.head?, c.isDigit = false) : clock? cs = none := by
  simp [clock?, hourMinute?, ↓guard_eq, fixedDigits?_of_head h]

theorem date?_of_head (h : ∀ c ∈ cs.head?, c.isDigit = false) : date? cs = none := by
  simp [date?, fixedDigits?_of_head h]

/-- After so many digits at the beginning of a number comes no such character. -/
theorem after?_of_fixedDigits? {c : Char} (hus : ∀ d ∈ us, d.isDigit = true ∨ d = '_')
    (hc : c.isDigit = false ∧ c ≠ '_')
    (hrest : count < us.length ∨ ∀ d ∈ rest.head?, d.isDigit = false ∧ d ≠ c)
    (h : fixedDigits? count (us ++ rest) = some (n, cs)) : after? [c] cs = none := by
  obtain ⟨vs, ⟨hlen, hall, _⟩, heq⟩ := exists_of_fixedDigits? h
  cases hafter : after? [c] cs with
  | none => rfl
  | some after =>
    exfalso
    rw [Text.eq_append_of_after? hafter] at heq
    -- Either the digits reach up to the end of the number, or they end within it.
    rcases List.append_eq_append_iff.mp heq with ⟨ds, hvs, hds⟩ | ⟨ds, hds, hmore⟩
    · have hlen' : us.length ≤ count := by rw [← hlen, hvs]; simp
      have hrest' := hrest.resolve_left (Nat.not_lt.mpr hlen')
      cases ds with
      | nil => exact (hrest' c (by rw [hds]; rfl)).2 rfl
      | cons d ds =>
        have hd := hall d (by rw [hvs]; simp)
        exact absurd hd (by simp [(hrest' d (by rw [hds]; rfl)).1])
    · cases ds with
      | nil =>
        have hlen' : us.length = count := by rw [hds, List.append_nil, hlen]
        have hrest' := hrest.resolve_left (by omega)
        exact (hrest' c (by rw [List.nil_append] at hmore; rw [← hmore]; rfl)).2 rfl
      | cons d ds =>
        cases hmore
        rcases hus c (by rw [hds]; simp) with hd | hd
        · exact absurd hd (by simp [hc.1])
        · exact hc.2 hd

/-- What begins with digits, and has neither a hyphen nor a colon after them, nor the letter of a
base. -/
def NoMoment (us rest : List Char) : Prop :=
  4 < us.length ∨ ∀ c ∈ rest.head?, c.isDigit = false ∧ c ∉ ['-', ':', 'x', 'b', 'o']

/-- The parts of a date and of a time are at most four digits long, so that the mark between them is
looked for within the number or right after it. -/
theorem NoMoment.of_le {c : Char} (h : NoMoment us rest) (hcount : count ≤ 4)
    (hc : c ∈ ['-', ':', 'x', 'b', 'o']) :
    count < us.length ∨ ∀ d ∈ rest.head?, d.isDigit = false ∧ d ≠ c :=
  h.imp (by omega) fun h d hd => ⟨(h d hd).1, fun heq => (h d hd).2 (heq ▸ hc)⟩

/-- A number is no date, as its first four digits have no hyphen after them. -/
theorem date?_eq_none (hus : ∀ d ∈ us, d.isDigit = true ∨ d = '_') (h : NoMoment us rest) :
    date? (us ++ rest) = none := by
  unfold date?
  cases hyear : fixedDigits? 4 (us ++ rest) with
  | none => rfl
  | some p =>
    have hafter := after?_of_fixedDigits? hus (by decide)
      (h.of_le (c := '-') (by decide) (by decide)) hyear
    simp [hafter]

/-- A number is no time of day, as its first two digits have no colon after them. -/
theorem clock?_eq_none (hus : ∀ d ∈ us, d.isDigit = true ∨ d = '_') (h : NoMoment us rest) :
    clock? (us ++ rest) = none := by
  unfold clock? hourMinute?
  cases hhour : fixedDigits? 2 (us ++ rest) with
  | none => rfl
  | some p =>
    have hafter := after?_of_fixedDigits? hus (by decide)
      (h.of_le (c := ':') (by decide) (by decide)) hhour
    simp [hafter, ↓guard_eq]

/-! ## 3. How a scalar begins -/

/-- The characters that begin a scalar. -/
def StartsScalar (c : Char) : Prop := c.isDigit = true ∨ c ∈ ['t', 'f', '+', '-', 'i', 'n']

theorem SpellsFixed.exists_cons (h : SpellsFixed (count + 1) n us) :
    ∃ d us', us = d :: us' ∧ d.isDigit = true := by
  obtain ⟨hlen, hall, _⟩ := h
  cases us with
  | nil => cases hlen
  | cons d us => exact ⟨d, us, rfl, hall d List.mem_cons_self⟩

theorem SpellsDate.exists_cons {date : Date} (h : SpellsDate date us) :
    ∃ d us', us = d :: us' ∧ d.isDigit = true := by
  obtain ⟨ys, ms, ds, hys, _, _, _, rfl⟩ := h
  obtain ⟨d, ys, rfl, hd⟩ := hys.exists_cons
  exact ⟨d, _, rfl, hd⟩

theorem SpellsClock.exists_cons {clock : Clock} (h : SpellsClock clock us) :
    ∃ d us', us = d :: us' ∧ d.isDigit = true := by
  obtain ⟨_, ss, fraction, ⟨hs, ms, hhs, _, _, _, rfl⟩, _, _, _, rfl⟩ := h
  obtain ⟨d, hs, rfl, hd⟩ := hhs.exists_cons
  exact ⟨d, _, rfl, hd⟩

theorem exists_signed {sign : List Char} {negative : Bool} {c : Char}
    (hsign : (sign, negative) ∈ signs) (hc : StartsScalar c) (cs : List Char) :
    ∃ d ds, sign ++ c :: cs = d :: ds ∧ StartsScalar d := by
  simp only [signs, List.mem_cons, Prod.mk.injEq, List.not_mem_nil, or_false] at hsign
  rcases hsign with ⟨rfl, rfl⟩ | ⟨rfl, rfl⟩ | ⟨rfl, rfl⟩
  · exact ⟨_, _, rfl, hc⟩
  · exact ⟨_, _, rfl, .inr (by decide)⟩
  · exact ⟨_, _, rfl, .inr (by decide)⟩

/-- A scalar is not empty, and it begins with a digit, a sign or the letter of a word. -/
theorem SpellsScalar.exists_cons (h : SpellsScalar v us) :
    ∃ c us', us = c :: us' ∧ StartsScalar c := by
  cases h with
  | yes | no => exact ⟨_, _, rfl, .inr (by decide)⟩
  | integer hsign h =>
    obtain ⟨d, us, rfl, hd⟩ := h.exists_cons
    exact exists_signed hsign (.inl hd) _
  | based => exact ⟨_, _, rfl, .inl rfl⟩
  | decimal hsign h =>
    obtain ⟨d, us, rfl, hd⟩ := h.exists_cons
    exact exists_signed hsign (.inl hd) _
  | infinite hsign => exact exists_signed hsign (.inr (by decide)) _
  | nan hsign => exact exists_signed hsign (.inr (by decide)) _
  | date h =>
    obtain ⟨d, us, rfl, hd⟩ := h.exists_cons
    exact ⟨d, us, rfl, .inl hd⟩
  | time h =>
    obtain ⟨d, us, rfl, hd⟩ := h.exists_cons
    exact ⟨d, us, rfl, .inl hd⟩
  | dateTime h =>
    obtain ⟨d, us, rfl, hd⟩ := h.exists_cons
    exact ⟨d, _, rfl, .inl hd⟩

theorem LongInteger.exists_cons (h : LongInteger cs) : ∃ c us, cs = c :: us ∧ StartsScalar c := by
  obtain ⟨sign, negative, ds, us, rest, hsign, hus, _, _, rfl⟩ := h
  obtain ⟨d, us, rfl, hd⟩ := hus.exists_cons
  exact exists_signed hsign (.inl hd) _

/-- Quotes, brackets and gaps begin no scalar. -/
theorem StartsScalar.ne {c d : Char} (h : StartsScalar c) (hd : d.isDigit = false)
    (hmem : d ∉ ['t', 'f', '+', '-', 'i', 'n']) : c ≠ d := by
  rintro rfl
  rcases h with h | h
  · exact absurd h (by simp [hd])
  · exact hmem h

/-! ## 4. What is tried before -/

theorem truth?_of_head (h : ∀ c ∈ cs.head?, c ≠ 't' ∧ c ≠ 'f') : truth? cs = none := by
  cases cs with
  | nil => rfl
  | cons c cs => simp [truth?, after?, (h c rfl).1.symm, (h c rfl).2.symm]

theorem truth?_of_isDigit {d : Char} (hd : d.isDigit = true) (cs : List Char) :
    truth? (d :: cs) = none := by
  refine truth?_of_head ?_
  rintro _ ⟨⟩
  exact ⟨(ne_of_isDigit hd rfl).symm, (ne_of_isDigit hd rfl).symm⟩

/-- What is read where nothing is found that is tried before: a number. -/
def readNumber (cs : List Char) : Reading Value :=
  (decimal? cs).getD (((namedNumber? cs).map .ok).getD (.error .malformed))

/-- Where none of the kinds before is found, numbers are left to be tried. -/
theorem readScalar_of_none (htruth : truth? cs = none) (hdate : date? cs = none)
    (hclock : clock? cs = none) (hbased : basedInteger? cs = none) :
    readScalar cs = readNumber cs := by
  have hdated : dated? cs = none := by rw [dated?_eq, hdate]; rfl
  simp [readScalar, readNumber, htruth, hdated, timed?, hclock, hbased]

/-- What begins neither with a digit nor as a truth value does is no scalar but a number. -/
theorem readScalar_of_head (h : ∀ c ∈ cs.head?, c.isDigit = false ∧ c ≠ 't' ∧ c ≠ 'f') :
    readScalar cs = readNumber cs := by
  have hdigit : ∀ c ∈ cs.head?, c.isDigit = false := fun c hc => (h c hc).1
  refine readScalar_of_none (truth?_of_head fun c hc => (h c hc).2) (date?_of_head hdigit)
    (clock?_of_head hdigit) ?_
  unfold basedInteger?
  split
  · exact absurd (hdigit '0' rfl) (by decide)
  · rfl

/-- A decimal number is read as one. -/
theorem SpellsWhole.readScalar {sign : List Char} {negative : Bool} {found : Reading Value}
    (h : SpellsWhole ds us) (hsign : (sign, negative) ∈ signs) (hrest : NoMoment us rest)
    (hfound : Toml.decimal? (sign ++ (us ++ rest)) = some found) :
    readScalar (sign ++ (us ++ rest)) = found := by
  have hread : Toml.readScalar (sign ++ (us ++ rest)) = readNumber (sign ++ (us ++ rest)) := by
    simp only [signs, List.mem_cons, Prod.mk.injEq, List.not_mem_nil, or_false] at hsign
    rcases hsign with ⟨rfl, rfl⟩ | ⟨rfl, rfl⟩ | ⟨rfl, rfl⟩
    · rw [List.nil_append]
      obtain ⟨d, us', hcons, hd⟩ := h.exists_cons
      refine readScalar_of_none (by rw [hcons]; exact truth?_of_isDigit hd _)
        (date?_eq_none h.mem hrest) (clock?_eq_none h.mem hrest)
        (h.basedInteger?_eq_none (hrest.imp (by omega) fun hhead c hc hmem => ?_))
      exact (hhead c hc).2 (List.mem_cons_of_mem _ (List.mem_cons_of_mem _ hmem))
    · exact readScalar_of_head (by rintro _ ⟨⟩; decide)
    · exact readScalar_of_head (by rintro _ ⟨⟩; decide)
  rw [hread, readNumber, hfound]
  rfl

/-- A word with a sign or without one is no decimal number. -/
theorem decimal?_eq_none {sign : List Char} {negative : Bool} {c : Char}
    (hsign : (sign, negative) ∈ signs) (hc : c.isDigit = false ∧ c ≠ '+' ∧ c ≠ '-')
    (cs : List Char) : decimal? (sign ++ c :: cs) = none := by
  have htake : Toml.sign (sign ++ c :: cs) = (negative, c :: cs) := by
    rw [sign_eq]
    exact Text.takeSign_append hsign (by rintro _ ⟨⟩; exact hc.2)
  have hwhole : whole? (c :: cs) = none := by
    unfold whole?
    split
    · next heq => cases heq; exact absurd hc.1 (by decide)
    · simp [digits?, hc.1]
  simp [decimal?, htake, hwhole]

/-- A word that is a number is read as such. -/
theorem readScalar_named {sign : List Char} {negative : Bool} {c : Char} {p : Value × List Char}
    (hsign : (sign, negative) ∈ signs) (hc : c = 'i' ∨ c = 'n')
    (hfound : namedNumber? (sign ++ c :: cs) = some p) : readScalar (sign ++ c :: cs) = .ok p := by
  have hdecimal : decimal? (sign ++ c :: cs) = none :=
    decimal?_eq_none hsign (by rcases hc with rfl | rfl <;> decide) cs
  have hhead : ∀ d ∈ (sign ++ c :: cs).head?, d.isDigit = false ∧ d ≠ 't' ∧ d ≠ 'f' := by
    simp only [signs, List.mem_cons, Prod.mk.injEq, List.not_mem_nil, or_false] at hsign
    rcases hsign with ⟨rfl, rfl⟩ | ⟨rfl, rfl⟩ | ⟨rfl, rfl⟩
    · rintro _ ⟨⟩
      rcases hc with rfl | rfl <;> decide
    · rintro _ ⟨⟩
      decide
    · rintro _ ⟨⟩
      decide
  rw [readScalar_of_head hhead, readNumber, hdecimal, hfound]
  rfl

/-- A date is found first, and what stands after it tells whether it is one with a time. -/
theorem SpellsDate.readScalar {date : Date} (h : SpellsDate date us) (rest : List Char) :
    readScalar (us ++ rest) = .ok (momentOf date rest (clockAfterDate? rest)) := by
  have htruth : truth? (us ++ rest) = none := by
    obtain ⟨d, us, rfl, hd⟩ := h.exists_cons
    exact truth?_of_isDigit hd _
  simp [Toml.readScalar, htruth, h.dated? rest]

/-- After a date comes no time of day unless one is written there. -/
theorem Follows.clockAfterDate? (h : Follows rest) : clockAfterDate? rest = none := by
  have hletter : ∀ c ∈ rest.head?, c ≠ 'T' ∧ c ≠ 't' := h.of_followers (by decide)
  cases rest with
  | nil => rfl
  | cons c rest =>
    by_cases hblank : c = ' '
    · subst hblank
      have hrest := (h.of_cons rfl).endsNumber
      simp [Toml.clockAfterDate?, clock?_of_head fun c hc => (hrest c hc).1]
    · simp [Toml.clockAfterDate?, hblank, hletter c rfl]

/-- After its first zero an integer of another base has a letter, so no date and no time is found in
it. -/
theorem SpellsDigits.readScalar {letter : Char} {base : Nat} {isDigit : Char → Bool}
    (h : SpellsDigits isDigit ds us) (hbase : (letter, base, isDigit) ∈ bases)
    (hrest : Follows rest) :
    readScalar ('0' :: letter :: us ++ rest) = .ok (.int (Text.natOfBase base ds : Nat), rest) := by
  have hfollowers : ∀ c ∈ followers, isDigit c = false ∧ c ≠ '_' := fun c hc =>
    ⟨(bases_digits hbase).2.2 c hc, by rintro rfl; exact absurd hc (by decide)⟩
  have hfound := h.basedInteger? hbase
    (stopsDigits_of_head fun c hc => hfollowers c (hrest.head c hc))
  have hletter : letter.isDigit = false := by
    simp only [bases, List.mem_cons, Prod.mk.injEq, List.not_mem_nil, or_false] at hbase
    rcases hbase with ⟨rfl, _⟩ | ⟨rfl, _⟩ | ⟨rfl, _⟩ <;> rfl
  have hfixed : ∀ count, ['0'].length < count →
      fixedDigits? count ('0' :: letter :: (us ++ rest)) = none := fun count hcount =>
    fixedDigits?_eq_none hcount hletter (us ++ rest)
  have hdate : date? ('0' :: letter :: (us ++ rest)) = none := by
    simp [date?, hfixed]
  have hclock : clock? ('0' :: letter :: (us ++ rest)) = none := by
    simp [clock?, hourMinute?, ↓guard_eq, hfixed]
  have hdated : Toml.dated? ('0' :: letter :: (us ++ rest)) = none := by rw [dated?_eq, hdate]; rfl
  have htruth : truth? ('0' :: letter :: (us ++ rest)) = none := truth?_of_isDigit rfl _
  simp [Toml.readScalar, htruth, hdated, timed?, hclock, hfound]

/-- A time of day is no date: a colon stands where the third digit of the year would be. -/
theorem SpellsClock.readScalar {clock : Clock} (h : SpellsClock clock us)
    (hrest : ∀ c ∈ rest.head?, c.isDigit = false ∧ c ≠ '.') :
    readScalar (us ++ rest) = .ok (.moment (.time clock), rest) := by
  have hclock := h.clock? hrest
  have htruth : truth? (us ++ rest) = none := by
    obtain ⟨d, us, rfl, hd⟩ := h.exists_cons
    exact truth?_of_isDigit hd _
  have hdate : date? (us ++ rest) = none := by
    obtain ⟨_, ss, fraction, ⟨hs, ms, ⟨hlen, _⟩, _, _, _, rfl⟩, _, _, _, rfl⟩ := h
    have hshort : hs.length < 4 := by omega
    have hyear := fixedDigits?_eq_none hshort (c := ':') rfl
      (ms ++ ':' :: (ss ++ (fraction ++ rest)))
    simp [date?, hyear]
  have hdated : dated? (us ++ rest) = none := by rw [dated?_eq, hdate]; rfl
  simp [Toml.readScalar, htruth, hdated, timed?, hclock]

/-- What comes after a time is its offset or what comes after the scalar. -/
theorem SpellsOffset.head {p : Char → Prop} {o : Option Int} (h : SpellsOffset o us)
    (hoffset : (p 'Z' ∧ p 'z') ∧ p '+' ∧ p '-') (hrest : ∀ c ∈ rest.head?, p c) :
    ∀ c ∈ (us ++ rest).head?, p c := by
  cases h with
  | none => exact hrest
  | zero hz =>
    rintro _ ⟨⟩
    rcases hz with rfl | rfl
    · exact hoffset.1.1
    · exact hoffset.1.2
  | some hsign =>
    rintro _ ⟨⟩
    rcases hsign with rfl | rfl
    · exact hoffset.2.1
    · exact hoffset.2.2

/-- A time that is written after a date, with one of three characters between them, is found. -/
theorem SpellsClock.clockAfterDate? {clock : Clock} {t : Char} (h : SpellsClock clock us)
    (ht : t = 'T' ∨ t = 't' ∨ t = ' ') (hrest : ∀ c ∈ rest.head?, c.isDigit = false ∧ c ≠ '.') :
    clockAfterDate? (t :: (us ++ rest)) = some (clock, rest) := by
  have ht' : (t = 'T' || t = 't' || t = ' ') = true := by simpa [or_assoc] using ht
  rw [Toml.clockAfterDate?, if_pos ht']
  exact h.clock? hrest

theorem exists_of_truth? (h : truth? cs = some (v, rest)) :
    ∃ us, SpellsScalar v us ∧ cs = us ++ rest := by
  unfold truth? at h
  split at h
  · next hafter => cases h; exact ⟨_, .yes, Text.eq_append_of_after? hafter⟩
  · next hafter => cases h; exact ⟨_, .no, Text.eq_append_of_after? hafter⟩
  · cases h

theorem exists_of_timed? (h : timed? cs = some (v, rest)) :
    ∃ us, SpellsScalar v us ∧ cs = us ++ rest := by
  obtain ⟨⟨clock, _⟩, hclock, heq⟩ := Option.map_eq_some_iff.mp h
  cases heq
  obtain ⟨us, hus, rfl⟩ := exists_of_clock? hclock
  exact ⟨us, .time hus, rfl⟩

/-! ## 5. Scalars -/

/-- **A scalar is read as the grammar says.** -/
theorem SpellsScalar.readScalar (h : SpellsScalar v us) (hrest : Follows rest) :
    readScalar (us ++ rest) = .ok (v, rest) := by
  have hends := hrest.endsNumber
  -- Each reader asks for its own thing of what comes next, and all of it follows from `hrest`.
  have hpart : ∀ c ∈ rest.head?, c.isDigit = false ∧ c ∉ ['-', ':', 'x', 'b', 'o'] :=
    hrest.of_followers (by decide)
  have hclock : ∀ c ∈ rest.head?, c.isDigit = false ∧ c ≠ '.' := fun c hc =>
    ⟨(hends c hc).1, fun heq => (hends c hc).2 (by simp [heq])⟩
  have hoffset : ∀ c ∈ rest.head?, c ∉ ['Z', 'z', '+', '-'] := hrest.of_followers (by decide)
  cases h with
  | yes => rfl
  | no => rfl
  | integer hsign h hfew =>
    have hfound := h.decimal?_integer hsign hfew hends
    rw [List.append_assoc] at hfound ⊢
    exact h.readScalar hsign (.inr hpart) hfound
  | based hbase h => exact h.readScalar hbase hrest
  | decimal hsign h hfs he hmore =>
    have hfound := h.decimal?_float hsign hfs he hmore hends
    simp only [List.append_assoc] at hfound ⊢
    refine h.readScalar hsign (.inr ?_) hfound
    exact hfs.head (by decide) (he.head (by decide) (by decide) hpart)
  | infinite hsign =>
    have hfound := namedNumber?_infinite hsign rest
    rw [List.append_assoc] at hfound ⊢
    exact readScalar_named hsign (.inl rfl) hfound
  | nan hsign =>
    have hfound := namedNumber?_nan hsign rest
    rw [List.append_assoc] at hfound ⊢
    exact readScalar_named hsign (.inr rfl) hfound
  | date h => rw [h.readScalar, hrest.clockAfterDate?, momentOf]
  | time h => exact h.readScalar hclock
  | @dateTime date clock offset ds cs os t hdate ht h hos =>
    have hafter := h.clockAfterDate? ht (hos.head (by decide) hclock)
    simp only [List.append_assoc, List.cons_append]
    rw [hdate.readScalar, hafter, momentOf, hos.offset hoffset]

/-- What is read as a scalar is what it is read as by one of the readers that are tried. -/
theorem readScalar_cases {found : Reading Value} (h : readScalar cs = found)
    (hne : found ≠ .error .malformed) :
    (∃ p, truth? cs = some p ∧ found = .ok p) ∨ dated? cs = some found ∨
      (∃ p, timed? cs = some p ∧ found = .ok p) ∨
      (∃ n rest, basedInteger? cs = some (n, rest) ∧ found = .ok (.int n, rest)) ∨
      decimal? cs = some found ∨ ∃ p, namedNumber? cs = some p ∧ found = .ok p := by
  -- The readers are tried one after the other, and the first that finds something gives the result.
  unfold readScalar at h
  cases htruth : truth? cs with
  | some p => exact .inl ⟨p, rfl, by rw [← h, htruth]; rfl⟩
  | none =>
  cases hdated : dated? cs with
  | some found' => exact .inr (.inl (by rw [← h, htruth, hdated]; rfl))
  | none =>
  cases htimed : timed? cs with
  | some p => exact .inr (.inr (.inl ⟨p, rfl, by rw [← h, htruth, hdated, htimed]; rfl⟩))
  | none =>
  cases hbased : basedInteger? cs with
  | some p =>
    exact .inr (.inr (.inr (.inl
      ⟨p.1, p.2, rfl, by rw [← h, htruth, hdated, htimed, hbased]; rfl⟩)))
  | none =>
  cases hdecimal : decimal? cs with
  | some found' =>
    exact .inr (.inr (.inr (.inr (.inl
      (by rw [← h, htruth, hdated, htimed, hbased, hdecimal]; rfl)))))
  | none =>
  cases hnamed : namedNumber? cs with
  | some p =>
    exact .inr (.inr (.inr (.inr (.inr
      ⟨p, rfl, by rw [← h, htruth, hdated, htimed, hbased, hdecimal, hnamed]; rfl⟩))))
  | none =>
    rw [htruth, hdated, htimed, hbased, hdecimal, hnamed] at h
    exact absurd h.symm hne

/-- **What is read as a scalar was written as one.** -/
theorem exists_of_readScalar (h : readScalar cs = .ok (v, rest)) :
    ∃ us, SpellsScalar v us ∧ cs = us ++ rest := by
  rcases readScalar_cases h nofun with ⟨p, htruth, heq⟩ | hdated | ⟨p, htimed, heq⟩ |
    ⟨n, after, hbased, heq⟩ | hdecimal | ⟨p, hnamed, heq⟩
  · cases heq
    exact exists_of_truth? htruth
  · exact exists_of_dated? hdated
  · cases heq
    exact exists_of_timed? htimed
  · cases heq
    exact exists_of_basedInteger? hbased
  · exact exists_of_decimal?_ok hdecimal
  · cases heq
    exact exists_of_namedNumber? hnamed

/-- **A scalar is not read for its digits exactly if it is an integer and has too many of them.** -/
theorem readScalar_eq_hugeInteger_iff :
    readScalar cs = .error .hugeInteger ↔ LongInteger cs := by
  constructor
  · intro h
    rcases readScalar_cases h nofun with ⟨p, _, heq⟩ | hdated | ⟨p, _, heq⟩ | ⟨n, after, _, heq⟩ |
      hdecimal | ⟨p, _, heq⟩
    · cases heq
    · exact absurd hdated (dated?_ne_hugeInteger cs)
    · cases heq
    · cases heq
    · exact decimal?_eq_hugeInteger_iff.mp hdecimal
    · cases heq
  · intro h
    have hfound := decimal?_eq_hugeInteger_iff.mpr h
    obtain ⟨sign, negative, ds, us, rest, hsign, hus, hmany, _, rfl⟩ := h
    have hlen : 4 < us.length := by
      have hle := hus.length_le
      rw [Text.maxDigits] at hmany
      omega
    exact hus.readScalar hsign (.inl hlen) hfound

end Ancestry.Toml
