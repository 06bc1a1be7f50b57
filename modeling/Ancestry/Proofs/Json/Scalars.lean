import Ancestry.Json.Writer
import Ancestry.Proofs.Json.Tokens

/-!
# Scalars are written as the grammar says

The written form of a value without parts follows the grammar.  Every character of a text is written
by itself, by a letter or by its numbers, of which there are two for a character beyond 16 bits, and
an integer is written without a zero in front.
-/

namespace Ancestry.Json

open Text (hexValue? hexDigit hexDigits maxDigits natOfDigits signed)

/-! ## 1. Texts -/

theorem hexValue?_hexDigit : ∀ {n : Nat}, n < 16 → hexValue? (hexDigit n) = some n := by
  decide

/-- A number of 16 bits is written by its digits. -/
theorem spellsUnit_escapedUnit {n : Nat} (hn : n < 0x10000) : SpellsUnit n (escapedUnit n) := by
  have hdigits : hexDigits 4 n = [hexDigit (n / 16 / 16 / 16 % 16), hexDigit (n / 16 / 16 % 16),
      hexDigit (n / 16 % 16), hexDigit (n % 16)] := rfl
  have hunit : unit? (hexDigit (n / 16 / 16 / 16 % 16)) (hexDigit (n / 16 / 16 % 16))
      (hexDigit (n / 16 % 16)) (hexDigit (n % 16)) = some n := by
    have hlt : ∀ m, m % 16 < 16 := fun m => Nat.mod_lt m (by decide)
    simp only [unit?, hexValue?_hexDigit (hlt _), Option.bind_eq_bind, Option.bind_some]
    exact congrArg some (by omega)
  rw [escapedUnit, hdigits]
  exact .number hunit

/-- The numbers by which a character is written: its own, or the two halves of it. -/
def unitsOf (c : Char) : List Nat :=
  if c.toNat ≤ 0xFFFF then [c.toNat]
  else [0xD800 + (c.toNat - 0x10000) / 0x400, 0xDC00 + (c.toNat - 0x10000) % 0x400]

/-- No character is a half of one. -/
theorem toNat_valid (c : Char) : c.toNat < 0xD800 ∨ 0xDFFF < c.toNat ∧ c.toNat < 0x110000 :=
  c.valid

theorem SpellsUnit.single {n : Nat} {cs : List Char} (h : SpellsUnit n cs) :
    SpellsUnits [n] cs := by
  simpa using SpellsUnits.cons h .nil

theorem SpellsUnits.append {ns ms : List Nat} {cs ds : List Char} (h : SpellsUnits ns cs)
    (h' : SpellsUnits ms ds) : SpellsUnits (ns ++ ms) (cs ++ ds) := by
  induction h with
  | nil => exact h'
  | cons hn _ ih =>
    rw [List.append_assoc]
    exact .cons hn ih

theorem spellsUnits_writeChar (c : Char) : SpellsUnits (unitsOf c) (writeChar c) := by
  unfold writeChar
  split
  · subst_vars; exact (SpellsUnit.letter rfl).single
  split
  · subst_vars; exact (SpellsUnit.letter rfl).single
  split
  · subst_vars; exact (SpellsUnit.letter rfl).single
  split
  · subst_vars; exact (SpellsUnit.letter rfl).single
  split
  · subst_vars; exact (SpellsUnit.letter rfl).single
  split
  · subst_vars; exact (SpellsUnit.letter rfl).single
  split
  · subst_vars; exact (SpellsUnit.letter rfl).single
  -- What is left is a character that stands for itself, or one that is written by its numbers.
  split
  · rename_i hquote hslash _ _ _ _ _ hascii
    rw [unitsOf, if_pos (Nat.le_trans hascii.2 (by decide))]
    exact (SpellsUnit.itself hquote hslash hascii.1).single
  split
  · rename_i hsmall
    rw [unitsOf, if_pos hsmall]
    exact (spellsUnit_escapedUnit (Nat.lt_succ_of_le hsmall)).single
  · rename_i hlarge
    have hvalid := toNat_valid c
    rw [unitsOf, if_neg hlarge]
    have hhigh := spellsUnit_escapedUnit (n := 0xD800 + (c.toNat - 0x10000) / 0x400) (by omega)
    exact hhigh.single.append (spellsUnit_escapedUnit (by omega)).single

/-- The numbers of a character, in front of others, are read as the character: two halves are
joined, and a number of 16 bits that is no half stands for itself. -/
theorem charsOfUnits?_unitsOf (c : Char) (units : List Nat) :
    charsOfUnits? (unitsOf c ++ units) = (charsOfUnits? units).map (c :: ·) := by
  have hvalid := toNat_valid c
  unfold unitsOf
  split
  · next hsmall =>
    have hhigh : isHighHalf c.toNat = false := by simp [isHighHalf]; omega
    have hlow : isLowHalf c.toNat = false := by simp [isLowHalf]; omega
    have hchar : charOfUnit? c.toNat = some c := by
      simp [charOfUnit?, hhigh, hlow, Char.ofNat_toNat]
    cases units with
    | nil => simp [charsOfUnits?, hchar]
    | cons n units =>
      have hpair : ¬ (isHighHalf c.toNat && isLowHalf n) = true := by simp [hhigh]
      rw [List.singleton_append, charsOfUnits?, if_neg hpair, hchar]
      cases charsOfUnits? (n :: units) <;> rfl
  -- The halves are put together by undoing what took the number apart.
  · next hlarge =>
    have hhigh : isHighHalf (0xD800 + (c.toNat - 0x10000) / 0x400) = true := by
      simp [isHighHalf]; omega
    have hlow : isLowHalf (0xDC00 + (c.toNat - 0x10000) % 0x400) = true := by
      simp [isLowHalf]; omega
    have hjoin : joinHalves (0xD800 + (c.toNat - 0x10000) / 0x400)
        (0xDC00 + (c.toNat - 0x10000) % 0x400) = c := by
      rw [joinHalves]
      refine Eq.trans (congrArg Char.ofNat ?_) (Char.ofNat_toNat c)
      omega
    simp [charsOfUnits?, hhigh, hlow, hjoin]

theorem spellsUnits_flatMap (cs : List Char) :
    SpellsUnits (cs.flatMap unitsOf) (cs.flatMap writeChar) := by
  induction cs with
  | nil => exact .nil
  | cons c cs ih => exact (spellsUnits_writeChar c).append ih

theorem charsOfUnits?_flatMap (cs : List Char) : charsOfUnits? (cs.flatMap unitsOf) = some cs := by
  induction cs with
  | nil => rfl
  | cons c cs ih => rw [List.flatMap_cons, charsOfUnits?_unitsOf, ih, Option.map_some]

/-- The numbers by which a text is written. -/
def unitsOfText (s : String) : List Nat := s.toList.flatMap unitsOf

/-- A text is what the numbers stand for by which it is written: no half of a character stands
alone. -/
theorem textOfUnits?_unitsOfText (s : String) : textOfUnits? (unitsOfText s) = some s := by
  rw [textOfUnits?, unitsOfText, charsOfUnits?_flatMap, Option.map_some, String.ofList_toList]

/-- **A text is written as the grammar says.** -/
theorem spellsText_writeText (s : String) : SpellsText (unitsOfText s) (writeText s) :=
  ⟨_, spellsUnits_flatMap s.toList, rfl⟩

/-! ## 2. Numbers -/

variable {n : Nat}

theorem isDigit_toDigits {c : Char} (hc : c ∈ Nat.toDigits 10 n) : c.isDigit = true :=
  Nat.isDigit_of_mem_toDigits (by decide) (by decide) hc

/-- A number is not written with a zero in front, unless it is zero. -/
theorem toDigits_eq_cons (n : Nat) :
    ∃ c ds, Nat.toDigits 10 n = c :: ds ∧ c.isDigit = true ∧ (c = '0' → ds = []) := by
  induction n using Nat.strongRecOn with
  | ind n ih =>
    by_cases hn : n < 10
    · exact ⟨n.digitChar, [], Nat.toDigits_of_lt_base hn, by simpa using hn, fun _ => rfl⟩
    · have hle : 10 ≤ n := Nat.le_of_not_lt hn
      obtain ⟨c, ds, hds, hc, hzero⟩ := ih (n / 10) (Nat.div_lt_self (by omega) (by decide))
      refine ⟨c, ds ++ [(n % 10).digitChar], ?_, hc, fun h => ?_⟩
      · rw [Nat.toDigits_of_base_le (by decide) hle, hds]
        rfl
      · -- A lone zero would be the tenth of a number that is less than ten.
        have hvalue := Nat.ofDigitChars_ten_toDigits (n := n / 10)
        rw [hds, hzero h, h] at hvalue
        exact absurd hvalue.symm (by simp [Nat.ofDigitChars]; omega)

/-- The digits of a number are a whole number as the grammar has it. -/
theorem isWhole_toDigits (n : Nat) : IsWhole (Nat.toDigits 10 n) := by
  have hall : ∀ d ∈ Nat.toDigits 10 n, d.isDigit = true := fun _ => isDigit_toDigits
  obtain ⟨c, ds, hds, _, hzero⟩ := toDigits_eq_cons n
  rw [hds] at hall ⊢
  by_cases hc : c = '0'
  · rw [hzero hc, hc]
    exact .inl rfl
  · exact .inr ⟨⟨nofun, hall⟩, fun h => hc (Option.some.inj h)⟩

theorem natOfDigits_toDigits (n : Nat) : natOfDigits (Nat.toDigits 10 n) = n := by
  have h := Nat.ofDigitChars_ten_toDigits (n := n)
  rwa [Nat.ofDigitChars_eq_foldl] at h

/-- **An integer is written as the grammar says**, if it does not have too many digits. -/
theorem spellsNumber_toDigits (negative : Bool) (hn : (Nat.toDigits 10 n).length ≤ maxDigits) :
    SpellsNumber negative (.int (signed negative n)) (Nat.toDigits 10 n) := by
  have h : SpellsNumber negative _ _ := .integer (isWhole_toDigits n) hn
  rwa [natOfDigits_toDigits] at h

/-! ## 3. Values -/

theorem spells_bool (b : Bool) :
    Spells (.value (.bool b)) (if b then "true" else "false").toList := by
  cases b
  · exact .word (by simp [words])
  · exact .word (by simp [words])

/-- **An integer is written as the grammar says**, with its sign. -/
theorem spells_int {n : Int} (hn : (Nat.toDigits 10 n.natAbs).length ≤ maxDigits) :
    Spells (.value (.int n)) (toString n).toList := by
  cases n with
  | ofNat n =>
    have hdigits : (toString (Int.ofNat n)).toList = Nat.toDigits 10 n := Nat.toList_repr
    rw [hdigits]
    exact .number (spellsNumber_toDigits false hn)
  | negSucc n =>
    have hdigits : (toString (Int.negSucc n)).toList = '-' :: Nat.toDigits 10 (n + 1) := by
      have hrepr : toString (Int.negSucc n) = "-" ++ Nat.repr (n + 1) := rfl
      rw [hrepr, String.toList_append, Nat.toList_repr]
      rfl
    rw [hdigits]
    exact .negative (spellsNumber_toDigits true hn)

end Ancestry.Json
