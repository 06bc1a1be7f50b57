import Ancestry.Text.Reading

/-!
# Scanning

What the two readers have in common: how results are put together, runs of characters of one kind,
which are read up to where they end, and the bytes that encode a text.
-/

namespace Ancestry

/-! ## 1. Results -/

section
variable {ε α β : Type} {x : Except ε α} {b : β} {e : ε}

theorem map_eq_ok {f : α → β} (h : x.map f = .ok b) : ∃ a, x = .ok a ∧ f a = b := by
  cases x with
  | error e => cases h
  | ok a => exact ⟨a, rfl, Except.ok.inj h⟩

theorem map_eq_error {f : α → β} (h : x.map f = .error e) : x = .error e := by
  cases x with
  | error e' => exact congrArg _ (Except.error.inj h)
  | ok a => cases h

theorem bind_eq_ok {f : α → Except ε β} (h : x >>= f = .ok b) : ∃ a, x = .ok a ∧ f a = .ok b := by
  cases x with
  | error e => cases h
  | ok a => exact ⟨a, rfl, h⟩

theorem bind_eq_error {f : α → Except ε β} (h : x >>= f = .error e) :
    x = .error e ∨ ∃ a, x = .ok a ∧ f a = .error e := by
  cases x with
  | error e' => exact .inl (congrArg _ (Except.error.inj h))
  | ok a => exact .inr ⟨a, rfl, h⟩

theorem guard_eq (p : Prop) [Decidable p] :
    (guard p : Option Unit) = if p then some () else none := rfl

end

namespace Text

variable {p : Char → Bool} {cs ds ws rest : List Char}

/-! ## 2. Runs of characters -/

theorem dropWhile_of_head (h : ∀ c ∈ cs.head?, p c = false) : cs.dropWhile p = cs := by
  cases cs with
  | nil => rfl
  | cons c cs => exact List.dropWhile_cons_of_neg (by simp [h c rfl])

theorem takeWhile_of_head (h : ∀ c ∈ cs.head?, p c = false) : cs.takeWhile p = [] := by
  cases cs with
  | nil => rfl
  | cons c cs => exact List.takeWhile_cons_of_neg (by simp [h c rfl])

/-- A run is passed over up to where it ends. -/
theorem dropWhile_run (hds : ∀ c ∈ ds, p c = true) (h : ∀ c ∈ rest.head?, p c = false) :
    (ds ++ rest).dropWhile p = rest := by
  rw [List.dropWhile_append_of_pos hds, dropWhile_of_head h]

/-- A run is read up to where it ends. -/
theorem takeWhile_run (hds : ∀ c ∈ ds, p c = true) (h : ∀ c ∈ rest.head?, p c = false) :
    (ds ++ rest).takeWhile p = ds := by
  rw [List.takeWhile_append_of_pos hds, takeWhile_of_head h, List.append_nil]

/-- Where a run has been passed over, it does not go on. -/
theorem head_dropWhile (p : Char → Bool) (cs : List Char) :
    ∀ c ∈ (cs.dropWhile p).head?, p c = false := by
  intro c hc
  have h := List.head?_dropWhile_not p cs
  rwa [Option.mem_def.mp hc] at h

theorem mem_takeWhile {c : Char} (hc : c ∈ cs.takeWhile p) : p c = true :=
  List.all_eq_true.mp List.all_takeWhile c hc

/-- What is passed over is a run. -/
theorem exists_run (p : Char → Bool) (cs : List Char) :
    ∃ ds, (∀ c ∈ ds, p c = true) ∧ cs = ds ++ cs.dropWhile p :=
  ⟨cs.takeWhile p, fun _ hc => mem_takeWhile hc, List.takeWhile_append_dropWhile.symm⟩

/-! ## 3. Digits and signs -/

/-- Digits, of which there is at least one. -/
def IsDigits (ds : List Char) : Prop := ds ≠ [] ∧ ∀ d ∈ ds, d.isDigit = true

theorem IsDigits.exists_cons (h : IsDigits ds) : ∃ d ds', ds = d :: ds' ∧ d.isDigit = true ∧
    ∀ c ∈ ds', c.isDigit = true := by
  obtain ⟨hne, hall⟩ := h
  cases ds with
  | nil => exact absurd rfl hne
  | cons d ds => exact ⟨d, ds, rfl, List.forall_mem_cons.mp hall⟩

theorem isDigits_takeWhile {c : Char} (hc : c.isDigit = true) (cs : List Char) :
    IsDigits (c :: cs.takeWhile Char.isDigit) :=
  ⟨nofun, List.forall_mem_cons.mpr ⟨hc, fun _ => mem_takeWhile⟩⟩

theorem ne_of_isDigit {c d : Char} (hc : c.isDigit = true) (hd : d.isDigit = false) : d ≠ c := by
  rintro rfl
  exact absurd hc (by simp [hd])

/-- The signs of a number, and whether they make it negative. -/
def signs : List (List Char × Bool) := [([], false), (['+'], false), (['-'], true)]

/-- Whether a number is negative, and what comes after its sign. -/
def takeSign (cs : List Char) : Bool × List Char :=
  match cs with
  | '+' :: rest => (false, rest)
  | '-' :: rest => (true, rest)
  | rest => (false, rest)

theorem exists_takeSign (cs : List Char) :
    ∃ sign, (sign, (takeSign cs).1) ∈ signs ∧ cs = sign ++ (takeSign cs).2 := by
  unfold takeSign
  split
  · exact ⟨['+'], by simp [signs], rfl⟩
  · exact ⟨['-'], by simp [signs], rfl⟩
  · exact ⟨[], by simp [signs], rfl⟩

theorem takeSign_append {sign : List Char} {negative : Bool} (h : (sign, negative) ∈ signs)
    (hcs : ∀ c ∈ cs.head?, c ≠ '+' ∧ c ≠ '-') : takeSign (sign ++ cs) = (negative, cs) := by
  simp only [signs, List.mem_cons, Prod.mk.injEq, List.not_mem_nil, or_false] at h
  rcases h with ⟨rfl, rfl⟩ | ⟨rfl, rfl⟩ | ⟨rfl, rfl⟩
  · rw [List.nil_append]
    unfold takeSign
    split
    · exact absurd rfl (hcs '+' rfl).1
    · exact absurd rfl (hcs '-' rfl).2
    · rfl
  · rfl
  · rfl

/-- Digits follow a sign. -/
theorem IsDigits.head (h : IsDigits ds) (rest : List Char) :
    ∀ c ∈ (ds ++ rest).head?, c ≠ '+' ∧ c ≠ '-' := by
  obtain ⟨d, ds, rfl, hd, _⟩ := h.exists_cons
  rintro _ ⟨⟩
  exact ⟨(ne_of_isDigit hd rfl).symm, (ne_of_isDigit hd rfl).symm⟩

/-! ## 4. Bytes -/

/-- The text that bytes encode, if they do. -/
theorem fromUTF8?_eq_some_iff {bytes : ByteArray} {text : String} :
    String.fromUTF8? bytes = some text ↔ bytes = text.toUTF8 := by
  constructor
  · intro h
    unfold String.fromUTF8? at h
    split at h
    · cases h
      rfl
    · cases h
  · rintro rfl
    exact dif_pos text.isValidUTF8

theorem fromUTF8?_toUTF8 (text : String) : String.fromUTF8? text.toUTF8 = some text :=
  fromUTF8?_eq_some_iff.mpr rfl

end Text
end Ancestry
