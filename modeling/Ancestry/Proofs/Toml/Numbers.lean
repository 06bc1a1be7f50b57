import Ancestry.Proofs.Toml.Grammar

/-!
# Numbers are read as the grammar says

Of each reading function there are again two lemmas.  The first one needs to know that a number does
not go on in what comes after it: digits go on with a digit, or with an underscore and a digit
behind it (`StopsDigits`).

An integer is refused for its digits exactly if it is a `LongInteger`.  Other numbers may have as
many digits as they like.
-/

namespace Ancestry.Toml

open Text (exists_takeSign hexValue? maxDigits ne_of_isDigit natOfBase natOfDigits signed signs
  takeSign takeSign_append)

variable {cs ds us rest : List Char} {isDigit : Char → Bool}

/-! ## 1. Digits -/

/-- Digits in front of these characters do not go on. -/
def StopsDigits (isDigit : Char → Bool) (rest : List Char) : Prop :=
  (∀ c ∈ rest.head?, isDigit c = false) ∧ ∀ c cs, rest = '_' :: c :: cs → isDigit c = false

/-- Where neither a digit nor an underscore comes next, digits do not go on. -/
theorem stopsDigits_of_head (h : ∀ c ∈ rest.head?, isDigit c = false ∧ c ≠ '_') :
    StopsDigits isDigit rest := by
  refine ⟨fun c hc => (h c hc).1, ?_⟩
  rintro c cs rfl
  exact absurd rfl (h '_' rfl).2

theorem digits?_cons {d : Char} (hd : isDigit d = true) (cs : List Char) :
    digits? isDigit (d :: cs) =
      some (d :: (moreDigits isDigit cs).1, (moreDigits isDigit cs).2) := by
  rw [digits?, if_pos hd]

/-- Where digits do not go on, an underscore is left where it is. -/
theorem moreDigits_stop (h : StopsDigits isDigit rest) : moreDigits isDigit rest = ([], rest) := by
  rw [moreDigits.eq_def]
  split
  · rfl
  · next c cs => simp [h.2 c cs rfl]
  · next c cs _ => simp [h.1 c rfl]

/-- More digits are digits, or they come after an underscore. -/
theorem moreDigits_of_digits? {p : List Char × List Char} (hunderscore : isDigit '_' = false)
    (h : digits? isDigit cs = some p) : moreDigits isDigit cs = p := by
  cases cs with
  | nil => cases h
  | cons d cs =>
    rw [digits?] at h
    split at h
    · next hd =>
      have hne : d ≠ '_' := by
        rintro rfl
        exact absurd hd (by simp [hunderscore])
      rw [moreDigits.eq_def]
      split
      · next heq => cases heq
      · next heq => exact absurd (List.cons.inj heq).1 hne
      · next heq => cases heq; rw [if_pos hd]; exact Option.some.inj h
    · cases h

/-- An underscore counts for nothing in front of digits. -/
theorem moreDigits_underscore {p : List Char × List Char} (h : digits? isDigit cs = some p) :
    moreDigits isDigit ('_' :: cs) = p := by
  cases cs with
  | nil => cases h
  | cons d cs =>
    rw [digits?] at h
    split at h
    · next hd => rw [moreDigits, if_pos hd]; exact Option.some.inj h
    · cases h

/-- **Digits are read as the grammar says**, up to where they end. -/
theorem SpellsDigits.digits? (h : SpellsDigits isDigit ds us) (hunderscore : isDigit '_' = false)
    (hrest : StopsDigits isDigit rest) : digits? isDigit (us ++ rest) = some (ds, rest) := by
  induction h with
  | one hd => rw [List.singleton_append, digits?_cons hd, moreDigits_stop hrest]
  | cons hd _ ih =>
    rw [List.cons_append, digits?_cons hd, moreDigits_of_digits? hunderscore ih]
  | underscore hd _ ih =>
    rw [List.cons_append, List.cons_append, digits?_cons hd, moreDigits_underscore ih]

/-- What is read as more digits was written as digits, after an underscore or not, or there are no
digits. -/
def SpellsMore (isDigit : Char → Bool) (ds us : List Char) : Prop :=
  ds = [] ∧ us = [] ∨ ∃ vs, SpellsDigits isDigit ds vs ∧ (us = vs ∨ us = '_' :: vs)

/-- Behind a digit they are digits in any case. -/
theorem SpellsMore.cons {d : Char} (hd : isDigit d = true) (h : SpellsMore isDigit ds us) :
    SpellsDigits isDigit (d :: ds) (d :: us) := by
  rcases h with ⟨rfl, rfl⟩ | ⟨vs, hvs, rfl | rfl⟩
  · exact .one hd
  · exact .cons hd hvs
  · exact .underscore hd hvs

/-- What is read as more digits was written as such.  The cases are those of the reader: the end, an
underscore with a digit behind it or without one, a digit, and another character. -/
theorem exists_of_moreDigits (hunderscore : isDigit '_' = false)
    (h : moreDigits isDigit cs = (ds, rest)) :
    ∃ us, SpellsMore isDigit ds us ∧ cs = us ++ rest ∧ StopsDigits isDigit rest := by
  fun_induction moreDigits isDigit cs generalizing ds rest with
  | case1 =>
    cases h
    exact ⟨[], .inl ⟨rfl, rfl⟩, rfl, nofun, nofun⟩
  | case2 d cs hd ds' rest' heq ih =>
    cases h
    obtain ⟨us, hus, rfl, hstop⟩ := ih heq
    exact ⟨'_' :: d :: us, .inr ⟨_, hus.cons hd, .inr rfl⟩, rfl, hstop⟩
  | case3 d cs hd =>
    cases h
    refine ⟨[], .inl ⟨rfl, rfl⟩, rfl, ?_, ?_⟩
    · rintro _ ⟨⟩
      exact hunderscore
    · rintro _ _ ⟨⟩
      exact Bool.eq_false_iff.mpr hd
  | case4 d cs hne hd ds' rest' heq ih =>
    cases h
    obtain ⟨us, hus, rfl, hstop⟩ := ih heq
    exact ⟨d :: us, .inr ⟨_, hus.cons hd, .inl rfl⟩, rfl, hstop⟩
  | case5 d cs hne hd =>
    cases h
    refine ⟨[], .inl ⟨rfl, rfl⟩, rfl, ?_, ?_⟩
    · rintro _ ⟨⟩
      exact Bool.eq_false_iff.mpr hd
    · rintro c cs' ⟨⟩
      exact absurd rfl (hne c cs' rfl)

/-- **What is read as digits was written as such**, and does not go on. -/
theorem exists_of_digits? (hunderscore : isDigit '_' = false)
    (h : digits? isDigit cs = some (ds, rest)) :
    ∃ us, SpellsDigits isDigit ds us ∧ cs = us ++ rest ∧ StopsDigits isDigit rest := by
  cases cs with
  | nil => cases h
  | cons d cs =>
    rw [digits?] at h
    split at h
    · next hd =>
      cases h
      obtain ⟨us, hus, hcs, hstop⟩ := exists_of_moreDigits hunderscore rfl
      exact ⟨d :: us, hus.cons hd, congrArg (d :: ·) hcs, hstop⟩
    · cases h

/-- Digits begin with a digit: an underscore is never the first. -/
theorem SpellsDigits.exists_cons (h : SpellsDigits isDigit ds us) :
    ∃ d us', us = d :: us' ∧ isDigit d = true := by
  cases h with
  | one hd => exact ⟨_, _, rfl, hd⟩
  | cons hd => exact ⟨_, _, rfl, hd⟩
  | underscore hd => exact ⟨_, _, rfl, hd⟩

theorem SpellsDigits.ne_nil (h : SpellsDigits isDigit ds us) : ds ≠ [] := by
  cases h <;> exact nofun

/-- There are no more digits than characters.  So a long integer is long as it is written. -/
theorem SpellsDigits.length_le (h : SpellsDigits isDigit ds us) : ds.length ≤ us.length := by
  induction h with
  | one => exact Nat.le_refl _
  | cons _ _ ih => exact Nat.succ_le_succ ih
  | underscore _ _ ih => exact Nat.le_succ_of_le (Nat.succ_le_succ ih)

/-- Digits are written with digits and underscores. -/
theorem SpellsDigits.mem (h : SpellsDigits isDigit ds us) :
    ∀ c ∈ us, isDigit c = true ∨ c = '_' := by
  induction h with
  | one hd => simp [hd]
  | cons hd _ ih => exact List.forall_mem_cons.mpr ⟨.inl hd, ih⟩
  | underscore hd _ ih =>
    exact List.forall_mem_cons.mpr ⟨.inl hd, List.forall_mem_cons.mpr ⟨.inr rfl, ih⟩⟩

/-! ## 2. Decimal numbers -/

/-- The sign of a number is taken as in a numeral. -/
theorem sign_eq (cs : List Char) : sign cs = takeSign cs := by
  unfold sign takeSign
  split
  · rfl
  · rfl
  · next hminus hplus =>
    split
    · exact absurd rfl (hplus _)
    · exact absurd rfl (hminus _)
    · rfl

/-- What begins with a digit has no sign. -/
theorem sign_append {sign' : List Char} {negative : Bool} {d : Char}
    (h : (sign', negative) ∈ signs) (hd : d.isDigit = true) (cs : List Char) :
    sign (sign' ++ d :: cs) = (negative, d :: cs) := by
  rw [sign_eq]
  refine takeSign_append h ?_
  rintro _ ⟨⟩
  exact ⟨(ne_of_isDigit hd rfl).symm, (ne_of_isDigit hd rfl).symm⟩

theorem SpellsWhole.exists_cons (h : SpellsWhole ds us) :
    ∃ d us', us = d :: us' ∧ d.isDigit = true := by
  cases h with
  | zero => exact ⟨_, _, rfl, rfl⟩
  | digits h => exact h.exists_cons

theorem SpellsWhole.length_le (h : SpellsWhole ds us) : ds.length ≤ us.length := by
  cases h with
  | zero => exact Nat.le_refl _
  | digits h => exact h.length_le

theorem SpellsWhole.mem (h : SpellsWhole ds us) : ∀ c ∈ us, c.isDigit = true ∨ c = '_' := by
  cases h with
  | zero => exact List.forall_mem_singleton.mpr (.inl rfl)
  | digits h => exact h.mem

/-- The digits in front of a fraction are read up to where they end.  A zero in front ends them at
once. -/
theorem SpellsWhole.whole? (h : SpellsWhole ds us) (hrest : StopsDigits Char.isDigit rest) :
    whole? (us ++ rest) = some (ds, rest) := by
  cases h with
  | zero => rfl
  | digits h hzero =>
    rw [Toml.whole?.eq_def]
    obtain ⟨d, us', rfl, _⟩ := h.exists_cons
    split
    · next heq => exact absurd (congrArg some (List.cons.inj heq).1) hzero
    · exact h.digits? rfl hrest

/-- What is read as such was written as such.  After a zero alone digits may go on, which is left
for others to complain about. -/
theorem exists_of_whole? (h : whole? cs = some (ds, rest)) :
    ∃ us, SpellsWhole ds us ∧ cs = us ++ rest ∧
      (ds.length ≠ 1 → StopsDigits Char.isDigit rest) := by
  unfold Toml.whole? at h
  split at h
  · cases h
    exact ⟨['0'], .zero, rfl, fun hne => absurd rfl hne⟩
  · next hzero =>
    obtain ⟨us, hus, rfl, hstop⟩ := exists_of_digits? rfl h
    refine ⟨us, .digits hus fun hhead => ?_, rfl, fun _ => hstop⟩
    obtain ⟨d, us, rfl, _⟩ := hus.exists_cons
    cases hhead
    exact hzero (us ++ rest) rfl

theorem fraction_of_head (h : ∀ c ∈ rest.head?, c ≠ '.') : fraction rest = ([], rest) := by
  unfold fraction
  split
  · exact absurd rfl (h '.' rfl)
  · rfl

/-- A fraction is read if it is there, and none is read if none is. -/
theorem SpellsFraction.fraction {fs fraction' : List Char} (h : SpellsFraction fs fraction')
    (hstop : StopsDigits Char.isDigit rest) (hpoint : ∀ c ∈ rest.head?, c ≠ '.') :
    fraction (fraction' ++ rest) = (fs, rest) := by
  cases h with
  | none => exact fraction_of_head hpoint
  | some h => simp only [List.cons_append, Toml.fraction, h.digits? rfl hstop, Option.getD_some]

/-- What is read as a fraction was written as one, or nothing was: a point without a digit behind it
is not part of the number. -/
theorem exists_of_fraction (h : fraction cs = (ds, rest)) :
    ∃ fraction', SpellsFraction ds fraction' ∧ cs = fraction' ++ rest := by
  unfold Toml.fraction at h
  split at h
  · next cs =>
    cases hdigits : digits? Char.isDigit cs with
    | none =>
      rw [hdigits] at h
      cases h
      exact ⟨[], .none, rfl⟩
    | some p =>
      rw [hdigits] at h
      cases h
      obtain ⟨us, hus, rfl, _⟩ := exists_of_digits? rfl hdigits
      exact ⟨'.' :: us, .some hus, rfl⟩
  · cases h
    exact ⟨[], .none, rfl⟩

theorem exponent?_of_head (h : ∀ c ∈ rest.head?, c ≠ 'e' ∧ c ≠ 'E') : exponent? rest = none := by
  cases rest with
  | nil => rfl
  | cons c cs => simp [exponent?, h c rfl, ↓guard_eq]

/-- An exponent is read up to where its digits end. -/
theorem SpellsExponent.exponent? {n : Int} {exponent : List Char}
    (h : SpellsExponent (.some n) exponent) (hstop : StopsDigits Char.isDigit rest) :
    exponent? (exponent ++ rest) = .some (n, rest) := by
  cases h with
  | @some e sign' ds us negative he hsign hds =>
    have hread := hds.digits? rfl hstop
    obtain ⟨d, us, rfl, hd⟩ := hds.exists_cons
    rw [List.cons_append] at hread
    simp [Toml.exponent?, he, ↓guard_eq, sign_append hsign hd, hread]

/-- What is read as an exponent was written as one. -/
theorem exists_of_exponent? {n : Int} (h : exponent? cs = some (n, rest)) :
    ∃ exponent, SpellsExponent (some n) exponent ∧ cs = exponent ++ rest := by
  cases cs with
  | nil => cases h
  | cons e cs =>
    simp only [Toml.exponent?, sign_eq, Option.bind_eq_bind, Option.bind_eq_some_iff, ↓guard_eq,
      Option.ite_none_right_eq_some] at h
    obtain ⟨_, ⟨hletter, _⟩, ⟨ds, after⟩, hdigits, heq⟩ := h
    cases heq
    have he : e = 'e' ∨ e = 'E' := by simpa using hletter
    obtain ⟨sign', hsign, hcs⟩ := exists_takeSign cs
    obtain ⟨us, hus, hafter, _⟩ := exists_of_digits? rfl hdigits
    refine ⟨e :: (sign' ++ us), .some he hsign hus, ?_⟩
    rw [hcs, hafter]
    simp

/-- A decimal number goes on exactly if its digits do, or a fraction or an exponent is read. -/
theorem numberGoesOn_iff : NumberGoesOn cs ↔ ¬ StopsDigits Char.isDigit cs ∨
    fraction cs ≠ ([], cs) ∨ exponent? cs ≠ none := by
  constructor
  · intro h
    cases h with
    | digit hc => exact .inl fun hstop => by simp [hstop.1 _ rfl] at hc
    | underscore hc => exact .inl fun hstop => by simp [hstop.2 _ _ rfl] at hc
    | fraction hc => exact .inr (.inl (by simp [fraction, digits?_cons hc]))
    | @exponent n ds cs hds =>
      refine .inr (.inr ?_)
      cases hds with
      | @some e sign' ds us negative he hsign hds =>
        obtain ⟨d, us, rfl, hd⟩ := hds.exists_cons
        simp [exponent?, he, ↓guard_eq, sign_append hsign hd, digits?_cons hd]
  · rintro (h | h | h)
    · refine Classical.byContradiction fun hgoes => h ⟨fun c hc => ?_, fun c cs' hcs => ?_⟩
      · rw [Bool.eq_false_iff]
        intro hd
        cases cs with
        | nil => cases hc
        | cons c cs => cases hc; exact hgoes (.digit hd)
      · rw [Bool.eq_false_iff]
        rintro hd
        exact hgoes (hcs ▸ .underscore hd)
    · rcases hfraction : fraction cs with ⟨fs, rest⟩
      obtain ⟨fraction', hfs, rfl⟩ := exists_of_fraction hfraction
      cases hfs with
      | none => exact absurd hfraction h
      | some hfs =>
        obtain ⟨d, us, rfl, hd⟩ := hfs.exists_cons
        exact .fraction hd
    · obtain ⟨⟨n, rest⟩, hexponent⟩ := Option.ne_none_iff_exists'.mp h
      obtain ⟨exponent, he, rfl⟩ := exists_of_exponent? hexponent
      exact .exponent he

/-- The number with these parts, and what comes after it. -/
def numberOf (negative : Bool) (ds afterWhole fs afterFraction : List Char) :
    Option (Int × List Char) → Reading Value
  | some (e, rest) =>
    .ok (.float (.ofDecimal negative (natOfDigits (ds ++ fs)) (e - fs.length)), rest)
  | none =>
    if fs = [] then
      if maxDigits < ds.length then .error .hugeInteger
      else .ok (.int (signed negative (natOfDigits ds)), afterWhole)
    else .ok (.float (.ofDecimal negative (natOfDigits (ds ++ fs)) (-fs.length)), afterFraction)

/-- The reader of decimal numbers takes the parts one after the other, and makes the number of
them. -/
theorem decimal?_eq {negative : Bool} {afterSign afterWhole fs afterFraction : List Char}
    (hsign : sign cs = (negative, afterSign)) (hwhole : whole? afterSign = some (ds, afterWhole))
    (hfraction : fraction afterWhole = (fs, afterFraction)) :
    decimal? cs =
      some (numberOf negative ds afterWhole fs afterFraction (exponent? afterFraction)) := by
  simp only [decimal?, hsign, hwhole, hfraction, bind, Option.bind]
  cases exponent? afterFraction with
  | some p => rfl
  | none =>
    cases fs with
    | nil => rfl
    | cons c fs => rfl

/-- What a number is read as, after its sign. -/
theorem SpellsWhole.decimal? {sign' afterWhole fs afterFraction : List Char} {negative : Bool}
    (h : SpellsWhole ds us) (hsign : (sign', negative) ∈ signs)
    (hstop : StopsDigits Char.isDigit afterWhole)
    (hfraction : fraction afterWhole = (fs, afterFraction)) :
    decimal? (sign' ++ (us ++ afterWhole)) =
      some (numberOf negative ds afterWhole fs afterFraction (exponent? afterFraction)) := by
  have hwhole := h.whole? hstop
  obtain ⟨d, us, rfl, hd⟩ := h.exists_cons
  exact decimal?_eq (sign_append hsign hd _) hwhole hfraction

/-- No number goes on with one of these characters. -/
def EndsNumber (rest : List Char) : Prop :=
  ∀ c ∈ rest.head?, c.isDigit = false ∧ c ∉ ['_', '.', 'e', 'E']

theorem EndsNumber.stops (h : EndsNumber rest) : StopsDigits Char.isDigit rest :=
  stopsDigits_of_head fun c hc => ⟨(h c hc).1, fun heq => (h c hc).2 (by simp [heq])⟩

/-- An exponent begins with its letter. -/
theorem SpellsExponent.head {p : Char → Prop} {e : Option Int} {exponent : List Char}
    (h : SpellsExponent e exponent) (he : p 'e') (hE : p 'E') (hrest : ∀ c ∈ rest.head?, p c) :
    ∀ c ∈ (exponent ++ rest).head?, p c := by
  cases h with
  | none => exact hrest
  | some hletter =>
    rintro _ ⟨⟩
    rcases hletter with rfl | rfl
    · exact he
    · exact hE

/-- A fraction begins with its point. -/
theorem SpellsFraction.head {p : Char → Prop} {fs fraction' : List Char}
    (h : SpellsFraction fs fraction') (hpoint : p '.') (hrest : ∀ c ∈ rest.head?, p c) :
    ∀ c ∈ (fraction' ++ rest).head?, p c := by
  cases h with
  | none => exact hrest
  | some =>
    rintro _ ⟨⟩
    exact hpoint

/-- Neither the whole part of a number nor its fraction goes on with an exponent. -/
theorem SpellsExponent.stops {e : Option Int} {exponent : List Char}
    (h : SpellsExponent e exponent) (hrest : EndsNumber rest) :
    StopsDigits Char.isDigit (exponent ++ rest) ∧ ∀ c ∈ (exponent ++ rest).head?, c ≠ '.' := by
  refine ⟨stopsDigits_of_head (h.head (by decide) (by decide) fun c hc => ⟨(hrest c hc).1, ?_⟩),
    h.head (by decide) (by decide) fun c hc => ?_⟩
  · exact fun heq => (hrest c hc).2 (by simp [heq])
  · exact fun heq => (hrest c hc).2 (by simp [heq])

/-- The whole part does not go on with a fraction, which begins with its point. -/
theorem SpellsFraction.stops {fs fraction' : List Char} (h : SpellsFraction fs fraction')
    (hrest : StopsDigits Char.isDigit rest) : StopsDigits Char.isDigit (fraction' ++ rest) := by
  cases h with
  | none => exact hrest
  | some => exact stopsDigits_of_head (by rintro _ ⟨⟩; decide)

/-- Nothing that ends a number begins an exponent. -/
theorem EndsNumber.exponent? (h : EndsNumber rest) : exponent? rest = none :=
  exponent?_of_head fun c hc =>
    ⟨fun heq => (h c hc).2 (by simp [heq]), fun heq => (h c hc).2 (by simp [heq])⟩

/-- **An integer is read as the grammar says.** -/
theorem SpellsWhole.decimal?_integer {sign' : List Char} {negative : Bool} (h : SpellsWhole ds us)
    (hsign : (sign', negative) ∈ signs) (hfew : ds.length ≤ maxDigits) (hrest : EndsNumber rest) :
    Toml.decimal? (sign' ++ us ++ rest) =
      some (.ok (.int (signed negative (natOfDigits ds)), rest)) := by
  have hfraction := fraction_of_head fun c hc heq => (hrest c hc).2 (by simp [heq])
  rw [List.append_assoc, h.decimal? hsign hrest.stops hfraction, hrest.exponent?, numberOf,
    if_pos rfl, if_neg (Nat.not_lt.mpr hfew)]

/-- **A number with a fraction or an exponent is read as the grammar says.** -/
theorem SpellsWhole.decimal?_float {sign' fs fraction' exponent : List Char} {negative : Bool}
    {e : Option Int} (h : SpellsWhole ds us) (hsign : (sign', negative) ∈ signs)
    (hfs : SpellsFraction fs fraction') (he : SpellsExponent e exponent)
    (hmore : fs ≠ [] ∨ e ≠ none) (hrest : EndsNumber rest) :
    Toml.decimal? (sign' ++ (us ++ (fraction' ++ exponent)) ++ rest) = some (.ok
      (.float (.ofDecimal negative (natOfDigits (ds ++ fs)) (e.getD 0 - fs.length)), rest)) := by
  -- From the end to the beginning: each part ends where the next one begins.
  obtain ⟨hstop, hpoint⟩ := he.stops hrest
  have hread := h.decimal? hsign (hfs.stops hstop) (hfs.fraction hstop hpoint)
  simp only [List.append_assoc] at hread ⊢
  rw [hread]
  cases he with
  | none =>
    have hne : fs ≠ [] := hmore.resolve_right (not_not_intro rfl)
    rw [List.nil_append, hrest.exponent?, numberOf, if_neg hne]
    simp
  | some he hsign' hds =>
    rw [(SpellsExponent.some he hsign' hds).exponent? hrest.stops]
    rfl

/-- The parts of a decimal number that is read. -/
theorem exists_of_decimal? {found : Reading Value} (h : decimal? cs = some found) :
    ∃ negative ds afterWhole fs afterFraction sign' us, (sign', negative) ∈ signs ∧
      SpellsWhole ds us ∧ (ds.length ≠ 1 → StopsDigits Char.isDigit afterWhole) ∧
      fraction afterWhole = (fs, afterFraction) ∧
      found = numberOf negative ds afterWhole fs afterFraction (exponent? afterFraction) ∧
      cs = sign' ++ (us ++ afterWhole) := by
  obtain ⟨sign', hsign, hcs⟩ := exists_takeSign cs
  rw [← sign_eq] at hsign hcs
  cases hwhole : whole? (sign cs).2 with
  | none => simp [decimal?, hwhole] at h
  | some p =>
    obtain ⟨ds, afterWhole⟩ := p
    obtain ⟨us, hus, hafter, hstop⟩ := exists_of_whole? hwhole
    rw [decimal?_eq rfl hwhole rfl] at h
    exact ⟨_, ds, afterWhole, _, _, sign', us, hsign, hus, hstop, rfl, (Option.some.inj h).symm,
      by rw [← hafter, ← hcs]⟩

/-- **What is read as a decimal number was written as one.** -/
theorem exists_of_decimal?_ok {v : Value} (h : decimal? cs = some (.ok (v, rest))) :
    ∃ ds, SpellsScalar v ds ∧ cs = ds ++ rest := by
  obtain ⟨negative, ds, afterWhole, fs, afterFraction, sign', us, hsign, hus, _, hfraction, hfound,
    rfl⟩ := exists_of_decimal? h
  obtain ⟨fraction', hfs, rfl⟩ := exists_of_fraction hfraction
  cases hexponent : exponent? afterFraction with
  | some p =>
    obtain ⟨e, _⟩ := p
    obtain ⟨exponent, he, rfl⟩ := exists_of_exponent? hexponent
    rw [hexponent] at hfound
    cases hfound
    exact ⟨_, .decimal hsign hus hfs he (.inr nofun), by simp⟩
  | none =>
    rw [hexponent, numberOf] at hfound
    split at hfound
    · split at hfound
      · cases hfound
      · next hnil hfew =>
        cases hfound
        exact ⟨_, .integer hsign hus (Nat.not_lt.mp hfew), by simp⟩
    · next hne =>
      cases hfound
      have hfloat := SpellsScalar.decimal hsign hus hfs .none (.inl hne)
      simp only [Option.getD_none, Int.zero_sub] at hfloat
      exact ⟨_, hfloat, by simp⟩

/-- **A number is not read for its digits exactly if it is an integer and has too many of them.** -/
theorem decimal?_eq_hugeInteger_iff :
    decimal? cs = some (.error .hugeInteger) ↔ LongInteger cs := by
  constructor
  · intro h
    obtain ⟨negative, ds, afterWhole, fs, afterFraction, sign', us, hsign, hus, hstop, hfraction,
      hfound, rfl⟩ := exists_of_decimal? h
    cases hexponent : exponent? afterFraction with
    | some p => rw [hexponent] at hfound; cases hfound
    | none =>
      rw [hexponent, numberOf] at hfound
      split at hfound
      · next hnil =>
        split at hfound
        · next hmany =>
          refine ⟨sign', negative, ds, us, afterWhole, hsign, hus, hmany, ?_, rfl⟩
          obtain ⟨fraction', hfs, rfl⟩ := exists_of_fraction hfraction
          subst hnil
          cases hfs with
          | some hfs => exact absurd rfl hfs.ne_nil
          | none =>
            -- If the number went on, the reader would have taken what it goes on with.  Only after
            -- a zero alone it might not, and that is no long integer.
            have hlong : ds.length ≠ 1 := fun heq => absurd hmany (by rw [heq]; decide)
            rw [numberGoesOn_iff]
            rintro (h | h | h)
            · exact h (hstop hlong)
            · exact h hfraction
            · exact h hexponent
        · cases hfound
      · cases hfound
  · rintro ⟨sign', negative, ds, us, rest, hsign, hus, hmany, hgoes, rfl⟩
    rw [numberGoesOn_iff, not_or, not_or, Classical.not_not, Classical.not_not,
      Classical.not_not] at hgoes
    obtain ⟨hstop, hfraction, hexponent⟩ := hgoes
    rw [hus.decimal? hsign hstop hfraction, hexponent, numberOf, if_pos rfl, if_pos hmany]

/-! ## 3. Other numbers -/

/-- The characters that may come after a value. -/
def followers : List Char := [' ', '\t', '\n', '#', ',', ']', '\x7d']

theorem forall_followers {p : Char → Prop} : (∀ c ∈ followers, p c) ↔
    p ' ' ∧ p '\t' ∧ p '\n' ∧ p '#' ∧ p ',' ∧ p ']' ∧ p '\x7d' := by
  simp [followers]

/-- Neither an underscore nor a character that may come after a value is a digit. -/
theorem bases_digits {letter : Char} {base : Nat} (h : (letter, base, isDigit) ∈ bases) :
    bases.find? (·.1 = letter) = some (letter, base, isDigit) ∧ isDigit '_' = false ∧
      ∀ c ∈ followers, isDigit c = false := by
  simp only [bases, List.mem_cons, Prod.mk.injEq, List.not_mem_nil, or_false] at h
  rcases h with ⟨rfl, rfl, rfl⟩ | ⟨rfl, rfl, rfl⟩ | ⟨rfl, rfl, rfl⟩
  · exact ⟨rfl, rfl, forall_followers.mpr (by decide)⟩
  · exact ⟨rfl, rfl, forall_followers.mpr (by decide)⟩
  · exact ⟨rfl, rfl, forall_followers.mpr (by decide)⟩

/-- **An integer of a base besides ten is read as the grammar says.** -/
theorem SpellsDigits.basedInteger? {letter : Char} {base : Nat} (h : SpellsDigits isDigit ds us)
    (hbase : (letter, base, isDigit) ∈ bases) (hrest : StopsDigits isDigit rest) :
    basedInteger? ('0' :: letter :: (us ++ rest)) =
      some (((natOfBase base ds : Nat) : Int), rest) := by
  obtain ⟨hfind, hunderscore, _⟩ := bases_digits hbase
  have hread := h.digits? hunderscore hrest
  simp only [Toml.basedInteger?, hfind, hread, bind, Option.bind]
  rfl

/-- **What is read as an integer of a base besides ten was written as one.** -/
theorem exists_of_basedInteger? {n : Int} (h : basedInteger? cs = some (n, rest)) :
    ∃ us, SpellsScalar (.int n) us ∧ cs = us ++ rest := by
  unfold Toml.basedInteger? at h
  split at h
  · next letter cs =>
    simp only [Option.bind_eq_bind, Option.bind_eq_some_iff] at h
    obtain ⟨⟨letter', base, isDigit⟩, hfind, ⟨ds, after⟩, hdigits, heq⟩ := h
    cases heq
    have hbase := List.mem_of_find?_eq_some hfind
    have hletter : letter' = letter := by simpa using List.find?_some hfind
    subst hletter
    obtain ⟨us, hus, rfl, _⟩ := exists_of_digits? (bases_digits hbase).2.1 hdigits
    exact ⟨_, .based hbase hus, rfl⟩
  · cases h

/-- What begins with a decimal number is no integer of another base. -/
theorem SpellsWhole.basedInteger?_eq_none (h : SpellsWhole ds us)
    (hrest : 1 < us.length ∨ ∀ c ∈ rest.head?, c ∉ ['x', 'b', 'o']) :
    basedInteger? (us ++ rest) = none := by
  unfold Toml.basedInteger?
  split
  · next letter cs heq =>
    cases h with
    | zero =>
      have hrest' := hrest.resolve_left (by decide)
      cases heq
      have hletter := hrest' letter rfl
      have hfind : bases.find? (·.1 = letter) = none := by
        simpa [bases, @eq_comm Char _ letter] using hletter
      rw [hfind]
      rfl
    | digits h hzero =>
      obtain ⟨d, us, rfl, _⟩ := h.exists_cons
      exact absurd (congrArg some (List.cons.inj heq).1) hzero
  · rfl

/-- The words that are numbers. -/
theorem namedNumber?_infinite {sign' : List Char} {negative : Bool} (h : (sign', negative) ∈ signs)
    (rest : List Char) : namedNumber? (sign' ++ "inf".toList ++ rest) =
      some (.float (.infinite negative), rest) := by
  simp only [signs, List.mem_cons, Prod.mk.injEq, List.not_mem_nil, or_false] at h
  rcases h with ⟨rfl, rfl⟩ | ⟨rfl, rfl⟩ | ⟨rfl, rfl⟩ <;> rfl

theorem namedNumber?_nan {sign' : List Char} {negative : Bool} (h : (sign', negative) ∈ signs)
    (rest : List Char) :
    namedNumber? (sign' ++ "nan".toList ++ rest) = some (.float .nan, rest) := by
  simp only [signs, List.mem_cons, Prod.mk.injEq, List.not_mem_nil, or_false] at h
  rcases h with ⟨rfl, rfl⟩ | ⟨rfl, rfl⟩ | ⟨rfl, rfl⟩ <;> rfl

/-- **What is read as a word for a number was written as one.** -/
theorem exists_of_namedNumber? {v : Value} (h : namedNumber? cs = some (v, rest)) :
    ∃ us, SpellsScalar v us ∧ cs = us ++ rest := by
  obtain ⟨sign', hsign, hcs⟩ := exists_takeSign cs
  simp only [namedNumber?, sign_eq] at h
  split at h
  · next after hafter =>
    cases h
    refine ⟨_, .infinite hsign, ?_⟩
    rw [hcs, Text.eq_append_of_after? hafter, List.append_assoc]
  · next after _ hafter =>
    cases h
    refine ⟨_, .nan hsign, ?_⟩
    rw [hcs, Text.eq_append_of_after? hafter, List.append_assoc]
  · cases h

end Ancestry.Toml
