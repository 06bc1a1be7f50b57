import Ancestry.Proofs.Toml.Grammar

/-!
# Dates and times are read as the grammar says

All parts of a date or a time but the fraction of a second have a fixed number of digits, so where a
date or a time ends hardly depends on what comes next.  What has to be known of it is said for each
part: a fraction of a second may go on with digits, a time of day with the distance from universal
time, and a date with a time of day.
-/

namespace Ancestry.Toml

open Text (IsDigits after? dropWhile_run eq_append_of_after? isDigits_takeWhile natOfDigits
  takeWhile_run)

variable {cs ds us rest : List Char} {count n : Nat}

/-! ## 1. Numbers with a fixed number of digits -/

theorem after?_cons (c : Char) (cs : List Char) : after? [c] (c :: cs) = some cs :=
  Text.after?_append [c] cs

/-- A number with a fixed number of digits is read whatever comes after it. -/
theorem SpellsFixed.fixedDigits? (h : SpellsFixed count n us) (rest : List Char) :
    fixedDigits? count (us ++ rest) = some (n, rest) := by
  obtain ⟨hlen, hall, rfl⟩ := h
  have hdigits : us.all Char.isDigit = true := List.all_eq_true.mpr hall
  simp [Toml.fixedDigits?, List.take_left' hlen, List.drop_left' hlen, hlen, hdigits]

/-- What is read as such a number was written as one. -/
theorem exists_of_fixedDigits? (h : fixedDigits? count cs = some (n, rest)) :
    ∃ us, SpellsFixed count n us ∧ cs = us ++ rest := by
  unfold Toml.fixedDigits? at h
  simp only at h
  split at h
  · next hdigits =>
    cases h
    rw [Bool.and_eq_true, decide_eq_true_eq, List.all_eq_true] at hdigits
    exact ⟨cs.take count, ⟨hdigits.1, hdigits.2, rfl⟩, (List.take_append_drop count cs).symm⟩
  · cases h

/-- The next characters are not so many digits, if one of them is no digit. -/
theorem fixedDigits?_eq_none {c : Char} (hlen : us.length < count) (hc : c.isDigit = false)
    (cs : List Char) : fixedDigits? count (us ++ c :: cs) = none := by
  have hmem : c ∈ (us ++ c :: cs).take count := by
    rw [List.take_append, List.take_cons (by omega)]
    simp
  unfold fixedDigits?
  rw [if_neg]
  intro h
  rw [Bool.and_eq_true, List.all_eq_true] at h
  exact absurd (h.2 c hmem) (by simp [hc])

/-! ## 2. Times of day -/

theorem SpellsHourMinute.hourMinute? {hour minute : Nat} (h : SpellsHourMinute hour minute us)
    (rest : List Char) : hourMinute? (us ++ rest) = some (hour, minute, rest) := by
  obtain ⟨hs, ms, hhs, hhour, hms, hminute, rfl⟩ := h
  have hread := hhs.fixedDigits? (':' :: (ms ++ rest))
  simp [Toml.hourMinute?, hread, after?_cons, hms.fixedDigits?, ↓guard_eq, hhour, hminute]

/-- What is read as hour and minute was written as such, and both are within bounds. -/
theorem exists_of_hourMinute? {hour minute : Nat} (h : hourMinute? cs = some (hour, minute, rest)) :
    ∃ us, SpellsHourMinute hour minute us ∧ cs = us ++ rest := by
  simp only [Toml.hourMinute?, Option.bind_eq_bind, Option.bind_eq_some_iff, ↓guard_eq,
    Option.ite_none_right_eq_some] at h
  obtain ⟨⟨hour', afterHour⟩, hhour, afterColon, hcolon, ⟨minute', afterMinute⟩, hminute, _,
    ⟨hless, _⟩, heq⟩ := h
  cases heq
  rw [Bool.and_eq_true, decide_eq_true_eq, decide_eq_true_eq] at hless
  obtain ⟨hs, hhs, rfl⟩ := exists_of_fixedDigits? hhour
  obtain ⟨ms, hms, rfl⟩ := exists_of_fixedDigits? hminute
  have hafter : afterHour = ':' :: (ms ++ afterMinute) := eq_append_of_after? hcolon
  exact ⟨_, ⟨hs, ms, hhs, hless.1, hms, hless.2, rfl⟩, by rw [hafter]; simp⟩

/-- A fraction of a second is read up to where its digits end, and none is read if none is
written. -/
theorem SpellsMicroseconds.microseconds (h : SpellsMicroseconds n us)
    (hrest : ∀ c ∈ rest.head?, c.isDigit = false ∧ c ≠ '.') :
    microseconds (us ++ rest) = (n, rest) := by
  cases h with
  | none =>
    rw [List.nil_append]
    unfold Toml.microseconds
    split
    · exact absurd rfl (hrest '.' rfl).2
    · rfl
  | @some ds hds =>
    have hend : ∀ c ∈ rest.head?, c.isDigit = false := fun c hc => (hrest c hc).1
    simp only [List.cons_append, Toml.microseconds, takeWhile_run hds.2 hend,
      dropWhile_run hds.2 hend]
    split
    · exact absurd rfl hds.1
    · rfl

/-- What is read as a fraction of a second was written as one.  A point without digits is not
read. -/
theorem exists_microseconds (cs : List Char) :
    ∃ us, SpellsMicroseconds (microseconds cs).1 us ∧ cs = us ++ (microseconds cs).2 := by
  unfold Toml.microseconds
  split
  · next cs =>
    split
    · exact ⟨[], .none, rfl⟩
    · next hne =>
      refine ⟨_, .some ⟨hne, fun _ => Text.mem_takeWhile⟩, ?_⟩
      rw [List.cons_append, List.takeWhile_append_dropWhile]
  · exact ⟨[], .none, rfl⟩

/-- **A time of day is read as the grammar says.** -/
theorem SpellsClock.clock? {clock : Clock} (h : SpellsClock clock us)
    (hrest : ∀ c ∈ rest.head?, c.isDigit = false ∧ c ≠ '.') :
    clock? (us ++ rest) = some (clock, rest) := by
  obtain ⟨hm, ss, fraction, hhm, hss, hsecond, hfraction, rfl⟩ := h
  have hread := hhm.hourMinute? (':' :: (ss ++ (fraction ++ rest)))
  simp [Toml.clock?, hread, after?_cons, hss.fixedDigits?, ↓guard_eq, hsecond,
    hfraction.microseconds hrest]

/-- **What is read as a time of day was written as one.** -/
theorem exists_of_clock? {clock : Clock} (h : clock? cs = some (clock, rest)) :
    ∃ us, SpellsClock clock us ∧ cs = us ++ rest := by
  simp only [Toml.clock?, Option.bind_eq_bind, Option.bind_eq_some_iff, ↓guard_eq,
    Option.ite_none_right_eq_some] at h
  obtain ⟨⟨hour, minute, afterMinute⟩, hhourMinute, afterColon, hcolon, ⟨second, afterSecond⟩,
    hsecond, _, ⟨hless, _⟩, heq⟩ := h
  cases heq
  obtain ⟨hm, hhm, rfl⟩ := exists_of_hourMinute? hhourMinute
  obtain ⟨ss, hss, rfl⟩ := exists_of_fixedDigits? hsecond
  obtain ⟨fraction, hfraction, hafterSecond⟩ := exists_microseconds afterSecond
  have hafter : afterMinute = ':' :: (ss ++ afterSecond) := eq_append_of_after? hcolon
  refine ⟨_, ⟨hm, ss, fraction, hhm, hss, hless, hfraction, rfl⟩, ?_⟩
  simp only [List.append_assoc, List.cons_append, ← hafterSecond, hafter]

/-! ## 3. The distance from universal time -/

/-- The distance from universal time is read if it is written, and otherwise nothing is. -/
theorem SpellsOffset.offset {o : Option Int} (h : SpellsOffset o us)
    (hrest : ∀ c ∈ rest.head?, c ∉ ['Z', 'z', '+', '-']) : offset (us ++ rest) = (o, rest) := by
  cases h with
  | none =>
    rw [List.nil_append]
    unfold Toml.offset
    split
    · exact absurd (by decide) (hrest 'Z' rfl)
    · exact absurd (by decide) (hrest 'z' rfl)
    · next c _ _ _ =>
      have hc := hrest c rfl
      simp only [List.mem_cons, not_or] at hc
      simp [hc]
    · rfl
  | zero hz => rcases hz with rfl | rfl <;> rfl
  | @some sign hour minute us hsign h =>
    have hread := h.hourMinute? rest
    rcases hsign with rfl | rfl
    · simp [Toml.offset, hread]
    · simp [Toml.offset, hread]

/-- What is read as a distance was written as one.  A sign without an hour and a minute is not
read. -/
theorem exists_offset (cs : List Char) :
    ∃ us, SpellsOffset (offset cs).1 us ∧ cs = us ++ (offset cs).2 := by
  unfold Toml.offset
  split
  · exact ⟨_, .zero (.inl rfl), rfl⟩
  · exact ⟨_, .zero (.inr rfl), rfl⟩
  · next c cs _ _ =>
    split
    · next hc =>
      split
      · next hour minute after hread =>
        obtain ⟨us, hus, rfl⟩ := exists_of_hourMinute? hread
        exact ⟨c :: us, .some (by simpa using hc) hus, rfl⟩
      · exact ⟨[], .none, rfl⟩
    · exact ⟨[], .none, rfl⟩
  · exact ⟨[], .none, rfl⟩

/-! ## 4. Dates -/

theorem SpellsDate.date? {date : Date} (h : SpellsDate date us) (rest : List Char) :
    date? (us ++ rest) = some (date, rest) := by
  obtain ⟨ys, ms, ds, hys, hms, hds, _, rfl⟩ := h
  have hyear := hys.fixedDigits? ('-' :: (ms ++ '-' :: (ds ++ rest)))
  have hmonth := hms.fixedDigits? ('-' :: (ds ++ rest))
  simp [Toml.date?, hyear, hmonth, after?_cons, hds.fixedDigits?]

/-- What is read as a date was written as one, if there is such a day. -/
theorem exists_of_date? {date : Date} (h : date? cs = some (date, rest))
    (hexists : date.exists = true) : ∃ us, SpellsDate date us ∧ cs = us ++ rest := by
  simp only [Toml.date?, Option.bind_eq_bind, Option.bind_eq_some_iff] at h
  obtain ⟨⟨year, afterYear⟩, hyear, afterHyphen, hhyphen, ⟨month, afterMonth⟩, hmonth, afterHyphen',
    hhyphen', ⟨day, afterDay⟩, hday, heq⟩ := h
  cases heq
  obtain ⟨ys, hys, rfl⟩ := exists_of_fixedDigits? hyear
  obtain ⟨ms, hms, rfl⟩ := exists_of_fixedDigits? hmonth
  obtain ⟨ds, hds, rfl⟩ := exists_of_fixedDigits? hday
  have hafter : afterYear = '-' :: (ms ++ afterMonth) := eq_append_of_after? hhyphen
  have hafter' : afterMonth = '-' :: (ds ++ afterDay) := eq_append_of_after? hhyphen'
  exact ⟨_, ⟨ys, ms, ds, hys, hms, hds, hexists, rfl⟩, by rw [hafter, hafter']; simp⟩

/-- What is read as the time of day after a date was written as one. -/
theorem exists_of_clockAfterDate? {clock : Clock} (h : clockAfterDate? cs = some (clock, rest)) :
    ∃ t us, (t = 'T' ∨ t = 't' ∨ t = ' ') ∧ SpellsClock clock us ∧ cs = t :: (us ++ rest) := by
  unfold clockAfterDate? at h
  split at h
  · next t cs =>
    split at h
    · next ht =>
      obtain ⟨us, hus, rfl⟩ := exists_of_clock? h
      exact ⟨t, us, by simpa [or_assoc] using ht, hus, rfl⟩
    · cases h
  · cases h

/-- A date with what is found after it. -/
def momentOf (date : Date) (afterDate : List Char) :
    Option (Clock × List Char) → Value × List Char
  | some (clock, rest) => (.moment (.dateTime date clock (offset rest).1), (offset rest).2)
  | none => (.moment (.date date), afterDate)

/-- A day that does not exist is refused, whatever comes after it. -/
theorem dated?_eq (cs : List Char) : dated? cs = (date? cs).map fun p =>
    if p.1.exists then .ok (momentOf p.1 p.2 (clockAfterDate? p.2)) else .error .malformed := by
  unfold dated?
  cases date? cs with
  | none => rfl
  | some p =>
    obtain ⟨date, afterDate⟩ := p
    cases hexists : date.exists with
    | false => simp [hexists]
    | true =>
      cases hclock : clockAfterDate? afterDate with
      | none => simp [hexists, hclock, momentOf]
      | some p => simp [hexists, hclock, momentOf]

/-- **A date is read as the grammar says**, and a time of day after it. -/
theorem SpellsDate.dated? {date : Date} (h : SpellsDate date us) (rest : List Char) :
    dated? (us ++ rest) = some (.ok (momentOf date rest (clockAfterDate? rest))) := by
  have hexists : date.exists = true := by
    obtain ⟨_, _, _, _, _, _, hexists, _⟩ := h
    exact hexists
  rw [dated?_eq, h.date? rest, Option.map_some, if_pos hexists]

/-- **What is read as a date, with a time of day or without, was written as such.** -/
theorem exists_of_dated? {v : Value} (h : dated? cs = some (.ok (v, rest))) :
    ∃ us, SpellsScalar v us ∧ cs = us ++ rest := by
  rw [dated?_eq, Option.map_eq_some_iff] at h
  obtain ⟨⟨date, afterDate⟩, hdate, h⟩ := h
  split at h
  · next hexists =>
    obtain ⟨us, hus, rfl⟩ := exists_of_date? hdate hexists
    cases hclock : clockAfterDate? afterDate with
    | none =>
      rw [hclock] at h
      cases h
      exact ⟨us, .date hus, rfl⟩
    | some p =>
      obtain ⟨clock, afterClock⟩ := p
      rw [hclock] at h
      cases h
      -- With a time of day the distance from universal time is looked for, which need not be there.
      obtain ⟨t, cs, ht, hcs, rfl⟩ := exists_of_clockAfterDate? hclock
      obtain ⟨os, hos, hafter⟩ := exists_offset afterClock
      refine ⟨_, .dateTime hus ht hcs hos, ?_⟩
      simp only [List.append_assoc, List.cons_append, ← hafter]
  · cases h

theorem dated?_ne_hugeInteger (cs : List Char) : dated? cs ≠ some (.error .hugeInteger) := by
  rw [dated?_eq, Ne, Option.map_eq_some_iff]
  rintro ⟨p, _, h⟩
  split at h <;> cases h

end Ancestry.Toml
