import Ancestry.Proofs.Toml.Grammar

/-!
# Texts and keys are read as the grammar says

Of each reading function for gaps, texts and keys there are two lemmas: what follows the grammar is
read, up to where it ends, and what is read followed the grammar.  The fuel of these functions is
more than there are characters.

For the first one has to know that what was written does not go on in what comes after it, which is
what the hypotheses about the head of the rest are for.  Between quotes there is nothing to know,
since a text ends with its quotes; there the second lemma is the harder one, and it is carried by
`BodyThen`, which says where in the text the reader is.
-/

namespace Ancestry.Toml

open Text (dropWhile_of_head dropWhile_run exists_run head_dropWhile takeWhile_run)

variable {cs ds ws rest : List Char} {fuel : Nat}

/-! ## 1. Gaps -/

theorem blanks_nil : Blanks [] := nofun

/-- Blanks in front of something else are passed over, and nothing more. -/
theorem Blanks.skip (hws : Blanks ws) (h : ∀ c ∈ cs.head?, isBlank c = false) :
    skipBlanks (ws ++ cs) = cs := dropWhile_run hws h

theorem Blanks.skip_cons {c : Char} (hws : Blanks ws) (hc : isBlank c = false) (cs : List Char) :
    skipBlanks (ws ++ c :: cs) = c :: cs :=
  hws.skip (by rintro _ ⟨⟩; exact hc)

/-- And what is passed over are blanks. -/
theorem exists_skipBlanks (cs : List Char) : ∃ ws, Blanks ws ∧ cs = ws ++ skipBlanks cs :=
  exists_run isBlank cs

theorem head_skipBlanks (cs : List Char) : ∀ c ∈ (skipBlanks cs).head?, isBlank c = false :=
  head_dropWhile isBlank cs

theorem isSpace_of_isBlank {c : Char} (h : isBlank c = true) : isSpace c = true := by
  simp [isSpace, h]

/-- Where no comment begins, nothing is passed over. -/
theorem skipComment_of_head (h : ∀ c ∈ cs.head?, c ≠ '#') : skipComment cs = .ok cs := by
  unfold skipComment
  split
  · exact absurd rfl (h '#' rfl)
  · rfl

/-- A comment ends where its line does. -/
theorem IsComment.skip (hds : IsComment ds) (h : ∀ c ∈ rest.head?, c = '\n') :
    skipComment ('#' :: (ds ++ rest)) = .ok rest := by
  have hline : ∀ c ∈ ds, (c != '\n') = true := fun c hc => by
    rw [bne_iff_ne]
    rintro rfl
    exact absurd (hds _ hc) (by decide)
  have hend : ∀ c ∈ rest.head?, (c != '\n') = false := fun c hc => by simp [h c hc]
  have hcomment : ¬ ds.any isControl = true := by
    simpa [IsComment] using hds
  simp only [skipComment, takeWhile_run hline hend, dropWhile_run hline hend, if_neg hcomment]

theorem IsComment.skip_break (hds : IsComment ds) (cs : List Char) :
    skipComment ('#' :: (ds ++ '\n' :: cs)) = .ok ('\n' :: cs) :=
  hds.skip (by rintro _ ⟨⟩; rfl)

/-- What is passed over was a comment, and a line ends there or the text does. -/
theorem exists_of_skipComment (h : skipComment ('#' :: cs) = .ok rest) :
    ∃ ds, IsComment ds ∧ cs = ds ++ rest ∧ ∀ c ∈ rest.head?, c = '\n' := by
  simp only [skipComment] at h
  split at h
  · cases h
  · next hcomment =>
    cases h
    refine ⟨_, ?_, List.takeWhile_append_dropWhile.symm, fun c hc => ?_⟩
    · simpa [IsComment] using hcomment
    · simpa using head_dropWhile _ cs c hc

/-- No integer is read here.  Of each reader that does not read integers the same is said, so that
the only places that are refused for too many digits are those of `readScalar`. -/
theorem skipComment_ne_hugeInteger (cs : List Char) : skipComment cs ≠ .error .hugeInteger := by
  unfold skipComment
  split
  · simp only
    split
    · exact nofun
    · exact nofun
  · exact nofun

/-- White space in front of a gap belongs to it. -/
theorem Gap.of_spaces (hws : ∀ c ∈ ws, isSpace c = true) (h : Gap cs) : Gap (ws ++ cs) := by
  induction ws with
  | nil => exact h
  | cons c ws ih =>
    obtain ⟨hc, hws⟩ := List.forall_mem_cons.mp hws
    exact .space hc (ih hws)

theorem skipLines_space {c : Char} (hc : isSpace c = true) (cs : List Char) :
    skipLines (fuel + 1) (c :: cs) = skipLines (fuel + 1) cs := by
  simp only [skipLines, List.dropWhile_cons_of_pos hc]

/-- A gap is passed over up to where it ends. -/
theorem Gap.skip (h : Gap ws) (hcs : ∀ c ∈ cs.head?, isSpace c = false ∧ c ≠ '#') :
    ∀ {fuel}, ws.length < fuel → skipLines fuel (ws ++ cs) = .ok cs := by
  induction h with
  | nil =>
    intro fuel hfuel
    obtain ⟨fuel, rfl⟩ : ∃ n, fuel = n + 1 := ⟨fuel - 1, by omega⟩
    rw [List.nil_append, skipLines, dropWhile_of_head fun c hc => (hcs c hc).1]
    split
    · exact absurd rfl (hcs '#' rfl).2
    · rfl
  | space hc _ ih =>
    intro fuel hfuel
    obtain ⟨fuel, rfl⟩ : ∃ n, fuel = n + 1 := ⟨fuel - 1, by omega⟩
    rw [List.cons_append, skipLines_space hc]
    exact ih (by simp at hfuel; omega)
  | comment hds _ ih =>
    intro fuel hfuel
    -- The comment takes one unit of fuel and the line break after it another.
    obtain ⟨fuel, rfl⟩ : ∃ n, fuel = n + 2 :=
      ⟨fuel - 2, by simp at hfuel; omega⟩
    rw [List.cons_append, List.append_assoc, List.cons_append, skipLines,
      List.dropWhile_cons_of_neg (by decide)]
    simp only [hds.skip_break, bind, Except.bind]
    rw [skipLines_space rfl]
    exact ih (by simp at hfuel; omega)

/-- A gap that does not begin with a comment is a gap still without its first character. -/
theorem Gap.tail {c : Char} (h : Gap (c :: cs)) (hc : c ≠ '#') : Gap cs := by
  cases h with
  | space _ h => exact h
  | comment => exact absurd rfl hc

/-- What is passed over in front of something else is a gap. -/
theorem exists_of_skipLines {c : Char} : ∀ {fuel cs}, cs.length < fuel →
    skipLines fuel cs = .ok (c :: rest) →
      (isSpace c = false ∧ c ≠ '#') ∧ ∃ ws, Gap ws ∧ cs = ws ++ c :: rest := by
  intro fuel
  induction fuel with
  | zero => exact fun hfuel => absurd hfuel (Nat.not_lt_zero _)
  | succ fuel ih =>
    intro cs hfuel h
    obtain ⟨ws, hws, hcs⟩ := exists_run isSpace cs
    have hhead := head_dropWhile isSpace cs
    rw [skipLines] at h
    split at h
    · next after heq =>
      rw [heq] at hcs
      obtain ⟨afterComment, hcomment, hmore⟩ := bind_eq_ok h
      obtain ⟨ds, hds, rfl, hend⟩ := exists_of_skipComment hcomment
      have hlength : afterComment.length < fuel := by
        rw [hcs] at hfuel
        simp only [List.length_append, List.length_cons] at hfuel
        omega
      obtain ⟨hc, ws', hws', rfl⟩ := ih hlength hmore
      cases ws' with
      | nil =>
        -- The comment ends with its line, and what was read is no white space.
        rw [hend c rfl] at hc
        exact absurd hc.1 (by decide)
      | cons d ws' =>
        cases hend d rfl
        refine ⟨hc, _, .of_spaces hws (.comment hds (hws'.tail (by decide))), ?_⟩
        rw [hcs]
        simp
    · next hne =>
      have heq := Except.ok.inj h
      rw [heq] at hcs hhead
      exact ⟨⟨hhead c rfl, fun hc => hne rest (heq.trans (by rw [hc]))⟩, ws,
        List.append_nil ws ▸ .of_spaces hws .nil, hcs⟩

theorem skipLines_ne_hugeInteger : ∀ (fuel : Nat) (cs : List Char),
    skipLines fuel cs ≠ .error .hugeInteger
  | 0, _ => nofun
  | fuel + 1, cs => by
    rw [skipLines]
    split
    · intro h
      rcases bind_eq_error h with hcomment | ⟨after, _, hmore⟩
      · exact skipComment_ne_hugeInteger _ hcomment
      · exact skipLines_ne_hugeInteger fuel after hmore
    · exact nofun

/-! ## 2. Texts in double quotes -/

theorem SpellsChar.length_pos {q c : Char} (h : SpellsChar q c ds) : 0 < ds.length := by
  cases h <;> simp

/-- The last of so many characters, with what comes after it. -/
theorem exists_drop {n : Nat} (h : ds.length = n + 1) (rest : List Char) :
    ∃ d, (ds ++ rest).drop n = d :: rest := by
  rcases List.eq_nil_or_concat ds with rfl | ⟨ds, d, rfl⟩
  · cases h
  · have hn : ds.length = n := by simpa using h
    exact ⟨d, by rw [List.concat_eq_append, List.append_assoc, List.drop_left' hn]; rfl⟩

/-- A character is read, and then the rest is. -/
theorem SpellsChar.readQuoted {c : Char} (h : SpellsChar '\x22' c ds) (long : Bool) (fuel : Nat)
    (rest : List Char) : readQuoted long (fuel + 1) (ds ++ rest) =
      (readQuoted long fuel rest).map fun p => (c :: p.1, p.2) := by
  cases h with
  | itself hquote hslash hcontrol =>
    rw [List.singleton_append, Toml.readQuoted.eq_def]
    simp [hquote, hslash rfl, hcontrol]
  | @letter e c _ h =>
    -- The letter is none of those that begin a number, nor white space, with which a line would be
    -- joined to the next one.
    have hu : e ≠ 'u' := by rintro rfl; cases h
    have hU : e ≠ 'U' := by rintro rfl; cases h
    have hspace : isSpace e = false := by
      rw [Bool.eq_false_iff]
      intro he
      simp only [isSpace, isBlank, Bool.or_eq_true, decide_eq_true_eq] at he
      rcases he with (rfl | rfl) | rfl <;> cases h
    rw [List.cons_append, List.singleton_append, Toml.readQuoted.eq_def]
    simp [h, hspace]
  | @number c ds _ hlen h =>
    obtain ⟨d, hdrop⟩ := exists_drop hlen rest
    rw [List.cons_append, List.cons_append, Toml.readQuoted.eq_def]
    simp [List.take_left' hlen, h, hdrop]
  | @longNumber c ds _ hlen h =>
    obtain ⟨d, hdrop⟩ := exists_drop hlen rest
    rw [List.cons_append, List.cons_append, Toml.readQuoted.eq_def]
    simp [List.take_left' hlen, h, hdrop]

/-- A text on one line is read up to its closing quote. -/
theorem SpellsLine.readQuoted (h : SpellsLine '\x22' cs ds) (rest : List Char) :
    ∀ {fuel}, ds.length < fuel →
      readQuoted false fuel (ds ++ '\x22' :: rest) = .ok (cs, rest) := by
  induction h with
  | nil =>
    intro fuel hfuel
    obtain ⟨fuel, rfl⟩ : ∃ n, fuel = n + 1 := ⟨fuel - 1, by omega⟩
    exact readQuoted_end fuel rest
  | @cons c cs us ds hc _ ih =>
    intro fuel hfuel
    obtain ⟨fuel, rfl⟩ : ∃ n, fuel = n + 1 := ⟨fuel - 1, by omega⟩
    have hus := hc.length_pos
    rw [List.append_assoc, hc.readQuoted, ih (by simp at hfuel; omega)]
    rfl

/-- A quote that belongs to the text is read. -/
theorem readQuoted_quote (h : ∀ after, cs ≠ '\x22' :: '\x22' :: after) (fuel : Nat) :
    readQuoted true (fuel + 1) ('\x22' :: cs) =
      (readQuoted true fuel cs).map fun p => ('\x22' :: p.1, p.2) := by
  rw [Toml.readQuoted.eq_def]
  simp only [if_true, Bool.not_true, Bool.false_eq_true, if_false]

/-- In a text over several lines a line break stands for itself. -/
theorem readQuoted_break (fuel : Nat) (cs : List Char) : readQuoted true (fuel + 1) ('\n' :: cs) =
    (readQuoted true fuel cs).map fun p => ('\n' :: p.1, p.2) := by
  rw [Toml.readQuoted.eq_def]
  simp

/-- A line that is joined to the next one: all white space goes up to the first other character. -/
theorem joinLines?_eq {ws' : List Char} (hws : Blanks ws) (hws' : ∀ c ∈ ws', isSpace c = true)
    (hend : ∀ c ∈ cs.head?, isSpace c = false) :
    joinLines? (ws ++ '\n' :: (ws' ++ cs)) = some cs := by
  have hskip : (ws ++ '\n' :: (ws' ++ cs)).dropWhile isBlank = '\n' :: (ws' ++ cs) :=
    hws.skip_cons rfl _
  simp only [joinLines?, hskip, dropWhile_run hws' hend]

/-- After a backslash at the end of a line the text goes on in the next one, without a character of
its own. -/
theorem readQuoted_joined {ws' : List Char} (hws : Blanks ws) (hws' : ∀ c ∈ ws', isSpace c = true)
    (hend : ∀ c ∈ cs.head?, isSpace c = false) (fuel : Nat) :
    readQuoted true (fuel + 1) ('\\' :: (ws ++ '\n' :: (ws' ++ cs))) = readQuoted true fuel cs := by
  have hjoin := joinLines?_eq hws hws' hend
  obtain ⟨e, after, he, hspace⟩ : ∃ e after, ws ++ '\n' :: (ws' ++ cs) = e :: after ∧
      isSpace e = true := by
    cases ws with
    | nil => exact ⟨'\n', _, rfl, rfl⟩
    | cons e ws => exact ⟨e, _, rfl, isSpace_of_isBlank (hws e List.mem_cons_self)⟩
  have hu : e ≠ 'u' := by rintro rfl; cases hspace
  have hU : e ≠ 'U' := by rintro rfl; cases hspace
  rw [he] at hjoin ⊢
  rw [Toml.readQuoted.eq_def]
  simp [hspace, hjoin]

/-- What goes on with another character does not begin with a quote, and so not with the closing
ones. -/
theorem GoesOn.ne {q : Char} (h : GoesOn q ds) (after : List Char) :
    ∀ after', ds ++ after ≠ q :: after' := by
  obtain ⟨c, ds, rfl, hc⟩ := h
  exact fun _ heq => hc (List.cons.inj heq).1

theorem head_append {c : Char} (h : ∀ c ∈ ds.head?, isSpace c = false) (hc : isSpace c = false) :
    ∀ d ∈ (ds ++ c :: rest).head?, isSpace d = false := by
  cases ds with
  | nil => rintro _ ⟨⟩; exact hc
  | cons d ds => exact h

theorem head_of_append (h : ∀ c ∈ (ds ++ rest).head?, isSpace c = false) :
    ∀ c ∈ ds.head?, isSpace c = false := by
  cases ds with
  | nil => exact nofun
  | cons d ds => exact h

/-- A text over several lines is read up to its closing quotes.  The induction is on how it is
written; of one or two quotes in a row it is known that something else comes after them, so they are
not taken for the closing ones. -/
theorem SpellsLines.readQuoted (h : SpellsLines '\x22' cs ds) (rest : List Char) :
    ∀ {fuel}, ds.length < fuel →
      readQuoted true fuel (ds ++ '\x22' :: '\x22' :: '\x22' :: rest) = .ok (cs, rest) := by
  induction h with
  | nil =>
    intro fuel hfuel
    obtain ⟨fuel, rfl⟩ : ∃ n, fuel = n + 1 := ⟨fuel - 1, by omega⟩
    rw [List.nil_append, Toml.readQuoted.eq_def]
    simp
  | @cons c cs us ds hc _ ih =>
    intro fuel hfuel
    obtain ⟨fuel, rfl⟩ : ∃ n, fuel = n + 1 := ⟨fuel - 1, by omega⟩
    have hus := hc.length_pos
    rw [List.append_assoc, hc.readQuoted, ih (by simp at hfuel; omega)]
    rfl
  | newLine _ ih =>
    intro fuel hfuel
    obtain ⟨fuel, rfl⟩ : ∃ n, fuel = n + 1 := ⟨fuel - 1, by omega⟩
    rw [List.cons_append, readQuoted_break, ih (by simp at hfuel; omega)]
    rfl
  | joined _ hws hws' hend _ ih =>
    intro fuel hfuel
    obtain ⟨fuel, rfl⟩ : ∃ n, fuel = n + 1 := ⟨fuel - 1, by omega⟩
    simp only [List.length_cons, List.length_append] at hfuel
    simp only [List.cons_append, List.append_assoc]
    rw [readQuoted_joined hws hws' (head_append hend rfl), ih (by omega)]
  | quote _ hmore ih =>
    intro fuel hfuel
    obtain ⟨fuel, rfl⟩ : ∃ n, fuel = n + 1 := ⟨fuel - 1, by omega⟩
    rw [List.cons_append, readQuoted_quote fun after => hmore.ne _ _,
      ih (by simp at hfuel; omega)]
    rfl
  | quotes _ hmore ih =>
    intro fuel hfuel
    obtain ⟨fuel, rfl⟩ : ∃ n, fuel = n + 2 := ⟨fuel - 2, by simp at hfuel; omega⟩
    rw [List.cons_append, List.cons_append,
      readQuoted_quote fun after heq => hmore.ne _ _ (List.cons.inj heq).2,
      readQuoted_quote fun after => hmore.ne _ _, ih (by simp at hfuel; omega)]
    rfl

/-- What stands between the quotes of a text of either length. -/
def SpellsBody (q : Char) : Bool → List Char → List Char → Prop
  | false => SpellsLine q
  | true => SpellsLines q

/-- The quotes in front of which a text of either length ends. -/
def closing (q : Char) (long : Bool) : List Char := if long then [q, q, q] else [q]

theorem SpellsBody.nil (q : Char) (long : Bool) : SpellsBody q long [] [] := by
  cases long
  · exact SpellsLine.nil
  · exact SpellsLines.nil

theorem SpellsBody.cons {q c : Char} {long : Bool} {us : List Char} (hc : SpellsChar q c us)
    (h : SpellsBody q long cs ds) : SpellsBody q long (c :: cs) (us ++ ds) := by
  cases long
  · exact SpellsLine.cons hc h
  · exact SpellsLines.cons hc h

theorem IsQuote.ne {q c : Char} (hq : IsQuote q) (hc : c ∉ ['\x22', '\x27']) : c ≠ q := by
  rintro rfl
  rcases hq with rfl | rfl <;> simp at hc

/-- A text that goes on with a character goes on with something other than a quote: a quote in
double quotes is written with a backslash. -/
theorem SpellsChar.goesOn {q c : Char} {us : List Char} (hc : SpellsChar q c us) (ds : List Char) :
    GoesOn q (us ++ ds) := by
  cases hc with
  | itself hquote => exact ⟨_, _, rfl, hquote⟩
  | letter hq => exact ⟨_, _, rfl, by rw [hq]; decide⟩
  | number hq => exact ⟨_, _, rfl, by rw [hq]; decide⟩
  | longNumber hq => exact ⟨_, _, rfl, by rw [hq]; decide⟩

/-- A quote in front of a text over several lines belongs to the text, if it is not the first one of
three. -/
theorem SpellsLines.cons_quote {q : Char} (hq : IsQuote q) (h : SpellsLines q cs ds)
    (hne : ∀ after, ds ++ q :: q :: q :: rest ≠ q :: q :: after) :
    SpellsLines q (q :: cs) (q :: ds) := by
  cases id h with
  | nil => exact absurd rfl (hne _)
  | cons hc => exact .quote h (hc.goesOn _)
  | newLine => exact .quote h ⟨_, _, rfl, hq.ne (by decide)⟩
  | joined => exact .quote h ⟨_, _, rfl, hq.ne (by decide)⟩
  | quote h' hmore => exact .quotes h' hmore
  | quotes => exact absurd rfl (hne _)

/-- What is passed over at the end of a line was blanks, the line break and white space. -/
theorem exists_of_joinLines? (h : joinLines? cs = some rest) : ∃ ws ws', Blanks ws ∧
    (∀ c ∈ ws', isSpace c = true) ∧ cs = ws ++ '\n' :: (ws' ++ rest) ∧
      ∀ c ∈ rest.head?, isSpace c = false := by
  obtain ⟨ws, hws, hcs⟩ := exists_run isBlank cs
  unfold joinLines? at h
  split at h
  · next after heq =>
    cases h
    obtain ⟨ws', hws', hafter⟩ := exists_run isSpace after
    refine ⟨ws, ws', hws, hws', ?_, head_dropWhile isSpace after⟩
    rw [← hafter, ← heq, ← hcs]
  · cases h

/-- Where there is a character at a place, there are as many characters up to it. -/
theorem take_of_drop {n : Nat} {d : Char} (h : cs.drop n = d :: rest) :
    (cs.take (n + 1)).length = n + 1 ∧ cs = cs.take (n + 1) ++ rest := by
  have hlength : cs.length - n = rest.length + 1 := by
    rw [← List.length_drop, h, List.length_cons]
  have hdrop : cs.drop (n + 1) = rest := by
    rw [← List.drop_drop, h]
    rfl
  refine ⟨by rw [List.length_take]; omega, ?_⟩
  rw [← hdrop, List.take_append_drop]

/-- A text stands here, up to its closing quotes, and after those the rest. -/
def BodyThen (q : Char) (long : Bool) (text cs rest : List Char) : Prop :=
  ∃ ds, SpellsBody q long text ds ∧ cs = ds ++ (closing q long ++ rest)

section
variable {q c : Char} {long : Bool} {text after us : List Char}

theorem BodyThen.nil (q : Char) (long : Bool) (rest : List Char) :
    BodyThen q long [] (closing q long ++ rest) rest :=
  ⟨[], .nil _ _, rfl⟩

/-- A character in front of a text is part of it. -/
theorem BodyThen.cons (h : BodyThen q long text after rest) (hc : SpellsChar q c us) :
    BodyThen q long (c :: text) (us ++ after) rest := by
  obtain ⟨ds, hds, rfl⟩ := h
  exact ⟨us ++ ds, hds.cons hc, (List.append_assoc _ _ _).symm⟩

theorem BodyThen.newLine (h : BodyThen q true text after rest) :
    BodyThen q true ('\n' :: text) ('\n' :: after) rest := by
  obtain ⟨ds, hds, rfl⟩ := h
  exact ⟨'\n' :: ds, SpellsLines.newLine hds, rfl⟩

theorem BodyThen.quote (h : BodyThen q true text after rest) (hq : IsQuote q)
    (hne : ∀ after', after ≠ q :: q :: after') :
    BodyThen q true (q :: text) (q :: after) rest := by
  obtain ⟨ds, hds, rfl⟩ := h
  exact ⟨q :: ds, SpellsLines.cons_quote hq hds hne, rfl⟩

/-- A joined line in front of a text adds nothing to it. -/
theorem BodyThen.joined (h : BodyThen '\x22' true text after rest)
    (hjoin : joinLines? cs = some after) : BodyThen '\x22' true text ('\\' :: cs) rest := by
  obtain ⟨ws, ws', hws, hws', rfl, hend⟩ := exists_of_joinLines? hjoin
  obtain ⟨ds, hds, rfl⟩ := h
  exact ⟨_, SpellsLines.joined rfl hws hws' (head_of_append hend) hds, by simp⟩

/-- A character that is not written by means of a backslash: it stands for itself, or it is a line
break. -/
theorem BodyThen.cons_plain (h : BodyThen q long text after rest) (hquote : c ≠ q)
    (hslash : q = '\x22' → c ≠ '\\') (hcontrol : ¬ (isControl c && !(long && c = '\n')) = true) :
    BodyThen q long (c :: text) (c :: after) rest := by
  by_cases hc : isControl c = true
  · have hline : long = true ∧ c = '\n' := by simpa [hc] using hcontrol
    obtain ⟨rfl, rfl⟩ := hline
    exact h.newLine
  · exact h.cons (.itself hquote hslash (Bool.eq_false_iff.mpr hc))

/-- Where a character is put in front of what is read, there is a rest to be read. -/
theorem BodyThen.of_map {found : Reading (List Char)}
    (h : found.map (fun p => (c :: p.1, p.2)) = .ok (text, rest))
    (hmore : ∀ {text'}, found = .ok (text', rest) → BodyThen q long (c :: text') cs rest) :
    BodyThen q long text cs rest := by
  obtain ⟨⟨text', _⟩, hread, heq⟩ := map_eq_ok h
  cases heq
  exact hmore hread

end

section
variable {long : Bool} {fuel : Nat} {text : List Char}
variable (ih : ∀ {text cs}, readQuoted long fuel cs = .ok (text, rest) →
  BodyThen '\x22' long text cs rest)
include ih

/-- At a quote the text ends, or the quote belongs to a text over several lines. -/
theorem bodyThen_of_quote (h : readQuoted long (fuel + 1) ('\x22' :: cs) = .ok (text, rest)) :
    BodyThen '\x22' long text ('\x22' :: cs) rest := by
  rw [Toml.readQuoted.eq_def] at h
  simp only [if_true] at h
  split at h
  · next hlong =>
    cases h
    rw [Bool.not_eq_true'] at hlong
    subst hlong
    exact .nil _ _ _
  · next hlong =>
    rw [Bool.not_eq_true', Bool.not_eq_false] at hlong
    subst hlong
    split at h
    · cases h
      exact .nil _ _ _
    · next hne => exact .of_map h fun hread => (ih hread).quote (.inl rfl) hne

/-- At a backslash there is a character by its number, a joined line or a character by its letter,
in the order in which the reader tries them. -/
theorem bodyThen_of_backslash (h : readQuoted long (fuel + 1) ('\\' :: cs) = .ok (text, rest)) :
    BodyThen '\x22' long text ('\\' :: cs) rest := by
  have hquote : '\\' ≠ '\x22' := by decide
  rw [Toml.readQuoted.eq_def] at h
  simp only [if_neg hquote, if_true] at h
  split at h
  · split at h
    · next c' d after hnumber hdrop =>
      obtain ⟨hlen, hcs⟩ := take_of_drop hdrop
      rw [hcs]
      exact .of_map h fun hread => (ih hread).cons (.number rfl hlen hnumber)
    · cases h
  · split at h
    · next c' d after hnumber hdrop =>
      obtain ⟨hlen, hcs⟩ := take_of_drop hdrop
      rw [hcs]
      exact .of_map h fun hread => (ih hread).cons (.longNumber rfl hlen hnumber)
    · cases h
  · split at h
    · next hjoin =>
      rw [Bool.and_eq_true] at hjoin
      obtain ⟨rfl, _⟩ := hjoin
      split at h
      · next after hafter => exact (ih h).joined hafter
      · cases h
    · split at h
      · next c' hletter => exact .of_map h fun hread => (ih hread).cons (.letter rfl hletter)
      · cases h
  · cases h

/-- Any other character stands for itself. -/
theorem bodyThen_of_plain {c : Char} (hquote : c ≠ '\x22') (hslash : c ≠ '\\')
    (h : readQuoted long (fuel + 1) (c :: cs) = .ok (text, rest)) :
    BodyThen '\x22' long text (c :: cs) rest := by
  rw [Toml.readQuoted.eq_def] at h
  simp only [hquote, hslash, if_false] at h
  split at h
  · cases h
  · next hcontrol =>
    exact .of_map h fun hread => (ih hread).cons_plain hquote (fun _ => hslash) hcontrol

end

/-- What is read between double quotes was written there. -/
theorem bodyThen_of_readQuoted {long : Bool} : ∀ {fuel : Nat} {text cs : List Char},
    readQuoted long fuel cs = .ok (text, rest) → BodyThen '\x22' long text cs rest := by
  intro fuel
  induction fuel with
  | zero => exact fun h => by rw [Toml.readQuoted] at h; cases h
  | succ fuel ih =>
    intro text cs h
    cases cs with
    | nil => rw [Toml.readQuoted.eq_def] at h; cases h
    | cons c cs =>
      by_cases hquote : c = '\x22'
      · subst hquote
        exact bodyThen_of_quote ih h
      by_cases hslash : c = '\\'
      · subst hslash
        exact bodyThen_of_backslash ih h
      · exact bodyThen_of_plain ih hquote hslash h

theorem readQuoted_ne_hugeInteger {long : Bool} : ∀ {fuel : Nat} {cs : List Char},
    readQuoted long fuel cs ≠ .error .hugeInteger := by
  intro fuel
  induction fuel with
  | zero => exact fun h => by rw [Toml.readQuoted] at h; cases h
  | succ fuel ih =>
    intro cs h
    cases cs with
    | nil => rw [Toml.readQuoted.eq_def] at h; cases h
    | cons c cs =>
      rw [Toml.readQuoted.eq_def] at h
      simp only at h
      repeat' split at h
      all_goals first | cases h | exact ih (map_eq_error h) | exact ih h

/-! ## 3. Texts in single quotes -/

/-- In single quotes there are no backslashes, so every character is written by itself. -/
theorem SpellsChar.literal {c : Char} (h : SpellsChar '\x27' c ds) :
    ds = [c] ∧ c ≠ '\x27' ∧ isControl c = false := by
  cases h with
  | itself hquote _ hcontrol => exact ⟨rfl, hquote, hcontrol⟩
  | letter hq | number hq | longNumber hq => exact absurd hq (by decide)

theorem readLiteral_char {c : Char} (hquote : c ≠ '\x27') (hcontrol : isControl c = false)
    (long : Bool) (cs : List Char) :
    readLiteral long (c :: cs) = (readLiteral long cs).map fun p => (c :: p.1, p.2) := by
  simp only [readLiteral, hquote, hcontrol, if_false, Bool.false_and, Bool.false_eq_true]

/-- A quote that belongs to a text in single quotes is read, as in double ones. -/
theorem readLiteral_quote (h : ∀ after, cs ≠ '\x27' :: '\x27' :: after) :
    readLiteral true ('\x27' :: cs) =
      (readLiteral true cs).map fun p => ('\x27' :: p.1, p.2) := by
  rw [readLiteral.eq_def]
  simp only [if_true, Bool.not_true, Bool.false_eq_true, if_false]

/-- A text on one line in single quotes is read up to its closing quote. -/
theorem SpellsLine.readLiteral (h : SpellsLine '\x27' cs ds) (rest : List Char) :
    readLiteral false (ds ++ '\x27' :: rest) = .ok (cs, rest) := by
  induction h with
  | nil => rfl
  | cons hc _ ih =>
    obtain ⟨rfl, hquote, hcontrol⟩ := hc.literal
    rw [List.append_assoc, List.singleton_append, readLiteral_char hquote hcontrol, ih]
    rfl

/-- And so is one over several lines. -/
theorem SpellsLines.readLiteral (h : SpellsLines '\x27' cs ds) (rest : List Char) :
    readLiteral true (ds ++ '\x27' :: '\x27' :: '\x27' :: rest) = .ok (cs, rest) := by
  induction h with
  | nil => rfl
  | cons hc _ ih =>
    obtain ⟨rfl, hquote, hcontrol⟩ := hc.literal
    rw [List.append_assoc, List.singleton_append, readLiteral_char hquote hcontrol, ih]
    rfl
  | newLine _ ih =>
    rw [List.cons_append, Toml.readLiteral.eq_def]
    simp [ih, Except.map]
  | joined hq => exact absurd hq (by decide)
  | quote _ hmore ih =>
    rw [List.cons_append, readLiteral_quote fun after => hmore.ne _ _, ih]
    rfl
  | quotes _ hmore ih =>
    rw [List.cons_append, List.cons_append,
      readLiteral_quote fun after heq => hmore.ne _ _ (List.cons.inj heq).2,
      readLiteral_quote fun after => hmore.ne _ _, ih]
    rfl

/-- What is read between single quotes was written there. -/
theorem bodyThen_of_readLiteral {long : Bool} : ∀ {text cs : List Char},
    readLiteral long cs = .ok (text, rest) → BodyThen '\x27' long text cs rest := by
  intro text cs
  induction cs generalizing text with
  | nil => exact fun h => by rw [Toml.readLiteral] at h; cases h
  | cons c cs ih =>
    intro h
    rw [Toml.readLiteral.eq_def] at h
    simp only at h
    split at h
    · next hc =>
      subst hc
      split at h
      · next hlong =>
        cases h
        rw [Bool.not_eq_true'] at hlong
        subst hlong
        exact .nil _ _ _
      · next hlong =>
        rw [Bool.not_eq_true', Bool.not_eq_false] at hlong
        subst hlong
        split at h
        · cases h
          exact .nil _ _ _
        · next hne => exact .of_map h fun hread => (ih hread).quote (.inr rfl) hne
    · next hquote =>
      split at h
      · cases h
      · next hcontrol => exact .of_map h fun hread => (ih hread).cons_plain hquote nofun hcontrol

theorem readLiteral_ne_hugeInteger {long : Bool} (cs : List Char) :
    readLiteral long cs ≠ .error .hugeInteger := by
  induction cs with
  | nil => exact nofun
  | cons c cs ih =>
    intro h
    rw [Toml.readLiteral.eq_def] at h
    simp only at h
    repeat' split at h
    all_goals first | cases h | exact ih (map_eq_error h)

/-! ## 4. Texts -/

/-- The reader of what stands between the quotes of a text. -/
def readBody (q : Char) (long : Bool) (cs : List Char) : Reading (List Char) :=
  if q = '\x22' then readQuoted long (cs.length + 1) cs else readLiteral long cs

/-- **What stands between quotes is read as the grammar says**, for both kinds of quotes and both
lengths. -/
theorem SpellsBody.read {q : Char} {long : Bool} (hq : IsQuote q) (h : SpellsBody q long cs ds)
    (rest : List Char) : readBody q long (ds ++ (closing q long ++ rest)) = .ok (cs, rest) := by
  have hfuel : ds.length < (ds ++ (closing q long ++ rest)).length + 1 := by
    simp only [List.length_append]
    omega
  rcases hq with rfl | rfl <;> cases long
  · exact SpellsLine.readQuoted h rest hfuel
  · exact SpellsLines.readQuoted h rest hfuel
  · exact SpellsLine.readLiteral h rest
  · exact SpellsLines.readLiteral h rest

/-- **What is read between quotes was written there.** -/
theorem bodyThen_of_readBody {q : Char} {long : Bool} {text : List Char} (hq : IsQuote q)
    (h : readBody q long cs = .ok (text, rest)) : BodyThen q long text cs rest := by
  rcases hq with rfl | rfl
  · exact bodyThen_of_readQuoted h
  · exact bodyThen_of_readLiteral h

theorem readBody_ne_hugeInteger (q : Char) (long : Bool) (cs : List Char) :
    readBody q long cs ≠ .error .hugeInteger := by
  unfold readBody
  split
  · exact readQuoted_ne_hugeInteger
  · exact readLiteral_ne_hugeInteger cs

/-- The text without a line break right at its beginning. -/
def dropBreak (cs : List Char) : List Char :=
  match cs with
  | '\n' :: rest => rest
  | cs => cs

/-- A text over several lines is read as its body, without the line break at the beginning, and with
up to two of the quotes behind it. -/
theorem readLong_eq (q : Char) (cs : List Char) : readLong q cs =
    (readBody q true (dropBreak cs)).map fun p =>
      (p.1 ++ (p.2.take 2).takeWhile (· = q), p.2.drop ((p.2.take 2).takeWhile (· = q)).length) :=
  rfl

/-- The line break at the beginning does not count, and no other one is left out. -/
theorem dropBreak_append {start : List Char}
    (h : start = ['\n'] ∨ start = [] ∧ ds.head? ≠ some '\n') (hne : ds ≠ []) :
    dropBreak (start ++ ds) = ds := by
  rcases h with rfl | ⟨rfl, hhead⟩
  · rfl
  · cases ds with
    | nil => exact absurd rfl hne
    | cons d ds =>
      unfold dropBreak
      split
      · next heq => exact absurd (congrArg List.head? heq) hhead
      · rfl

/-- And what was left out is such a line break, or nothing. -/
theorem exists_of_dropBreak (cs : List Char) : ∃ start, cs = start ++ dropBreak cs ∧
    (start = ['\n'] ∨ start = [] ∧ (dropBreak cs).head? ≠ some '\n') := by
  unfold dropBreak
  split
  · exact ⟨['\n'], rfl, .inl rfl⟩
  · next hne =>
    refine ⟨[], rfl, .inr ⟨rfl, fun h => ?_⟩⟩
    cases cs with
    | nil => cases h
    | cons c cs => cases h; exact hne cs rfl

/-- Up to two quotes are read. -/
theorem takeWhile_quotes {q : Char} {n : Nat} (hn : n ≤ 2) (h : ∀ c ∈ rest.head?, c ≠ q) :
    ((List.replicate n q ++ rest).take 2).takeWhile (· = q) = List.replicate n q := by
  cases rest with
  | nil =>
    obtain rfl | rfl | rfl : n = 0 ∨ n = 1 ∨ n = 2 := by omega
    all_goals simp
  | cons c cs =>
    have hc := h c rfl
    obtain rfl | rfl | rfl : n = 0 ∨ n = 1 ∨ n = 2 := by omega
    all_goals simp [hc, List.replicate]

/-- In front of anything stand so many quotes that count, and those are what is taken. -/
theorem exists_quotes (q : Char) (cs : List Char) : ∃ n, n ≤ 2 ∧
    (cs.take 2).takeWhile (· = q) = List.replicate n q ∧
      cs = List.replicate n q ++ cs.drop ((cs.take 2).takeWhile (· = q)).length := by
  match cs with
  | [] => exact ⟨0, by decide, rfl, rfl⟩
  | [c] =>
    by_cases hc : c = q
    · exact ⟨1, by decide, by simp [hc], by simp [hc]⟩
    · exact ⟨0, by decide, by simp [hc], by simp [hc]⟩
  | c :: d :: cs =>
    by_cases hc : c = q
    · by_cases hd : d = q
      · exact ⟨2, by decide, by simp [hc, hd, List.replicate], by simp [hc, hd, List.replicate]⟩
      · exact ⟨1, by decide, by simp [hc, hd], by simp [hc, hd]⟩
    · exact ⟨0, by decide, by simp [hc], by simp [hc]⟩

/-- A text on one line is not taken for one over several lines. -/
theorem after?_quotes {q : Char} (h : ∀ after, cs ≠ q :: q :: after) :
    Text.after? [q, q] cs = none := by
  cases hafter : Text.after? [q, q] cs with
  | none => rfl
  | some after => exact absurd (Text.eq_append_of_after? hafter) (h after)

/-- **A text is read as the grammar says**, if no other quote comes after it. -/
theorem SpellsText.readText {text : String} (h : SpellsText text ds) : ∃ q us, IsQuote q ∧
    ds = q :: us ∧
      ∀ rest, (∀ c ∈ rest.head?, c ≠ q) → readText q (us ++ rest) = .ok (text, rest) := by
  cases h with
  | @short q text cs hq h =>
    obtain ⟨us, hus, rfl⟩ := h
    -- Two more quotes at the beginning would make it a text over several lines.  Here that could
    -- only be the empty text with another quote behind it.
    refine ⟨q, us ++ [q], hq, rfl, fun rest hrest => ?_⟩
    have hbody : SpellsBody q false text us := hus
    have hread : readShort q (us ++ [q] ++ rest) = .ok (text, rest) := by
      rw [List.append_assoc]
      exact hbody.read hq rest
    have hshort : Text.after? [q, q] (us ++ [q] ++ rest) = none := by
      refine after?_quotes fun after heq => ?_
      cases hus with
      | nil =>
        have hafter : rest = q :: after := (List.cons.inj heq).2
        exact hrest q (by rw [hafter]; rfl) rfl
      | cons hc =>
        rw [List.append_assoc, List.append_assoc] at heq
        exact (hc.goesOn []).ne _ _ (by simpa using heq)
    simp only [Toml.readText, hshort, hread]
    rfl
  | @long q text cs hq h =>
    obtain ⟨start, body, us, n, hus, hn, rfl, hstart, rfl⟩ := h
    refine ⟨q, _, hq, rfl, fun rest hrest => ?_⟩
    have hbody : SpellsBody q true body us := hus
    have hread : readLong q (start ++ (us ++ q :: q :: q :: (List.replicate n q ++ rest))) =
        .ok (body ++ List.replicate n q, rest) := by
      have hdrop : dropBreak (start ++ (us ++ q :: q :: q :: (List.replicate n q ++ rest))) =
          us ++ (closing q true ++ (List.replicate n q ++ rest)) := by
        refine dropBreak_append (hstart.imp_right fun h => ⟨h.1, ?_⟩) (by simp)
        cases us with
        | nil => exact fun h' => hq.ne (by decide) (Option.some.inj h').symm
        | cons => exact h.2
      rw [readLong_eq, hdrop, hbody.read hq]
      simp [Except.map, takeWhile_quotes hn hrest]
    -- Without its line break the body is read, and of the quotes behind it those that count.
    have hlong : ∀ cs, Text.after? [q, q] (q :: q :: cs) = some cs := Text.after?_append [q, q]
    simp only [Toml.readText, List.cons_append, List.append_assoc, hlong, hread]
    rfl

/-- What is read as a text on one line was written as one. -/
theorem exists_of_readShort {q : Char} {text : List Char} (hq : IsQuote q)
    (h : readShort q cs = .ok (text, rest)) :
    ∃ us, SpellsShort q text (q :: us) ∧ cs = us ++ rest := by
  obtain ⟨us, hus, rfl⟩ := bodyThen_of_readBody hq h
  exact ⟨us ++ [q], ⟨us, hus, rfl⟩, (List.append_assoc _ _ _).symm⟩

/-- **What is read as a text was written as one.** -/
theorem exists_of_readText {q : Char} {text : String} (hq : IsQuote q)
    (h : readText q cs = .ok (text, rest)) : ∃ us, SpellsText text (q :: us) ∧ cs = us ++ rest := by
  unfold Toml.readText at h
  obtain ⟨⟨text, _⟩, hread, heq⟩ := map_eq_ok h
  cases heq
  split at hread
  · next after hafter =>
    rw [readLong_eq] at hread
    obtain ⟨⟨body, afterBody⟩, hbody, heq⟩ := map_eq_ok hread
    cases heq
    obtain ⟨us, hus, hdrop⟩ := bodyThen_of_readBody hq hbody
    -- Three quotes, perhaps a line break, the body, and quotes: one to each step of the reader.
    obtain ⟨start, hstart, hbreak⟩ := exists_of_dropBreak after
    obtain ⟨n, hn, hquotes, hrest⟩ := exists_quotes q afterBody
    refine ⟨q :: q :: (start ++ (us ++ q :: q :: q :: List.replicate n q)), .long hq
      ⟨start, body, us, n, hus, hn, by rw [hquotes], hbreak.imp_right fun h => ⟨h.1, ?_⟩, rfl⟩, ?_⟩
    · cases us with
      | nil => exact nofun
      | cons => rw [hdrop] at h; exact h.2
    · rw [Text.eq_append_of_after? hafter, hstart, hdrop]
      simp only [closing, if_true, List.cons_append, List.append_assoc, List.nil_append, ← hrest]
  · obtain ⟨us, hus, hcs⟩ := exists_of_readShort hq hread
    exact ⟨us, .short hq hus, hcs⟩

theorem readText_ne_hugeInteger (q : Char) (cs : List Char) :
    readText q cs ≠ .error .hugeInteger := by
  intro h
  have hread := map_eq_error h
  split at hread
  · exact readBody_ne_hugeInteger _ _ _ (map_eq_error (readLong_eq _ _ ▸ hread))
  · exact readBody_ne_hugeInteger _ _ _ hread

/-! ## 5. Keys -/

/-- A text on one line is read, whatever comes after its closing quote.  A key in quotes is such a
text, and after it there may well be another quote. -/
theorem SpellsShort.readShort {q : Char} {text : List Char} (hq : IsQuote q)
    (h : SpellsShort q text ds) : ∃ us, ds = q :: us ∧
      ∀ rest, readShort q (us ++ rest) = .ok (text, rest) := by
  obtain ⟨us, hus, rfl⟩ := h
  refine ⟨us ++ [q], rfl, fun rest => ?_⟩
  have hbody : SpellsBody q false text us := hus
  rw [List.append_assoc]
  exact hbody.read hq rest

/-- The test that the readers make. -/
theorem isQuote_iff {c : Char} : (c = '\x22' || c = '\x27') = true ↔ IsQuote c := by
  simp [IsQuote]

/-- A name without quotes is read up to the first character that cannot be in one. -/
theorem SpellsName.readName {name : String} (h : SpellsName name ds)
    (hrest : ∀ c ∈ rest.head?, isBareKeyChar c = false) :
    readName (ds ++ rest) = .ok (name, rest) := by
  cases h with
  | bare hne hall =>
    cases ds with
    | nil => exact absurd rfl hne
    | cons c ds =>
      have hc := hall c List.mem_cons_self
      have hquote : ¬ IsQuote c := by rintro (rfl | rfl) <;> cases hc
      rw [← isQuote_iff] at hquote
      rw [List.cons_append, Toml.readName, if_neg hquote, if_pos hc, ← List.cons_append,
        takeWhile_run hall hrest, dropWhile_run hall hrest]
  | quoted hq h =>
    obtain ⟨us, rfl, hread⟩ := h.readShort hq
    simp only [Toml.readName, List.cons_append, isQuote_iff.mpr hq, if_true, hread]
    rfl

/-- What is read as a name was written as one. -/
theorem exists_of_readName {name : String} (h : readName cs = .ok (name, rest)) :
    ∃ ds, SpellsName name ds ∧ cs = ds ++ rest := by
  cases cs with
  | nil => cases h
  | cons c cs =>
    rw [readName] at h
    split at h
    · next hq =>
      obtain ⟨⟨text, _⟩, hread, heq⟩ := map_eq_ok h
      cases heq
      obtain ⟨us, hus, rfl⟩ := exists_of_readShort (isQuote_iff.mp hq) hread
      exact ⟨c :: us, .quoted (isQuote_iff.mp hq) hus, rfl⟩
    split at h
    · next hc =>
      cases h
      refine ⟨_, .bare ?_ fun _ => Text.mem_takeWhile, List.takeWhile_append_dropWhile.symm⟩
      rw [List.takeWhile_cons_of_pos hc]
      exact nofun
    · cases h

theorem readName_ne_hugeInteger (cs : List Char) : readName cs ≠ .error .hugeInteger := by
  intro h
  cases cs with
  | nil => cases h
  | cons c cs =>
    rw [readName] at h
    split at h
    · exact readBody_ne_hugeInteger _ _ _ (map_eq_error h)
    split at h
    · cases h
    · cases h

/-- A name begins with a character that stands in no gap, nor begins a header, nor ends a table. -/
theorem SpellsName.exists_cons {name : String} (h : SpellsName name ds) :
    ∃ c us, ds = c :: us ∧ isBlank c = false ∧ c ∉ ['\n', '#', '[', '\x7d'] := by
  cases h with
  | bare hne hall =>
    cases ds with
    | nil => exact absurd rfl hne
    | cons c ds =>
      have hc := hall c List.mem_cons_self
      refine ⟨c, ds, rfl, Bool.eq_false_iff.mpr fun hblank => ?_, fun hmem => ?_⟩
      · simp only [isBlank, Bool.or_eq_true, decide_eq_true_eq] at hblank
        rcases hblank with rfl | rfl <;> cases hc
      · simp only [List.mem_cons, List.not_mem_nil, or_false] at hmem
        rcases hmem with rfl | rfl | rfl | rfl <;> cases hc
  | quoted hq h =>
    obtain ⟨us, _, rfl⟩ := h
    exact ⟨_, _, rfl, by rcases hq with rfl | rfl <;> decide⟩

/-- And so do the names of a key. -/
theorem SpellsNames.exists_cons {path : List String} {last : String}
    (h : SpellsNames path last ds) :
    ∃ c us, ds = c :: us ∧ isBlank c = false ∧ c ∉ ['\n', '#', '[', '\x7d'] := by
  cases h with
  | last h =>
    obtain ⟨c, us, rfl, hc⟩ := h.exists_cons
    exact ⟨c, _, rfl, hc⟩
  | cons h =>
    obtain ⟨c, us, rfl, hc⟩ := h.exists_cons
    exact ⟨c, _, rfl, hc⟩

theorem SpellsNames.head {path : List String} {last : String} (h : SpellsNames path last ds)
    (rest : List Char) : ∀ c ∈ (ds ++ rest).head?, isBlank c = false := by
  obtain ⟨c, us, rfl, hc, _⟩ := h.exists_cons
  rintro _ ⟨⟩
  exact hc

/-- What may come after a key: an equals sign or the end of a header. -/
def EndsKey (cs : List Char) : Prop := ∃ c ds, cs = c :: ds ∧ (c = '=' ∨ c = ']')

theorem EndsKey.head (h : EndsKey rest) : ∀ c ∈ rest.head?,
    isBareKeyChar c = false ∧ isBlank c = false ∧ c ≠ '.' := by
  obtain ⟨c, ds, rfl, hc⟩ := h
  rintro _ ⟨⟩
  rcases hc with rfl | rfl <;> decide

/-- No blank can be in a name without quotes, so a name ends in front of blanks. -/
theorem Blanks.head_bare (hws : Blanks ws) (h : ∀ c ∈ cs.head?, isBareKeyChar c = false) :
    ∀ c ∈ (ws ++ cs).head?, isBareKeyChar c = false := by
  cases ws with
  | nil => exact h
  | cons c ws =>
    rintro _ ⟨⟩
    have hc := hws c List.mem_cons_self
    simp only [isBlank, Bool.or_eq_true, decide_eq_true_eq] at hc
    rcases hc with rfl | rfl <;> rfl

/-- The names of a key are read up to where the blanks after the last one end.  The fuel is spent
one unit for each name, and each name has a character. -/
theorem SpellsNames.readNames {path : List String} {last : String} (h : SpellsNames path last ds)
    (hrest : EndsKey rest) :
    ∀ {fuel}, ds.length ≤ fuel → readNames fuel (ds ++ rest) = .ok (path, last, rest) := by
  induction h with
  | @last name cs ws h hws =>
    intro fuel hfuel
    obtain ⟨c, us, hcs, _⟩ := h.exists_cons
    obtain ⟨fuel, rfl⟩ : ∃ n, fuel = n + 1 := ⟨fuel - 1, by simp [hcs] at hfuel; omega⟩
    have hname := h.readName (hws.head_bare fun c hc => (hrest.head c hc).1)
    rw [List.append_assoc, Toml.readNames, hname]
    simp only [bind, Except.bind, hws.skip fun c hc => (hrest.head c hc).2.1]
    split
    · exact absurd rfl (hrest.head '.' rfl).2.2
    · rfl
  | @cons name last path cs ws ws' ds h hws hws' hmore ih =>
    intro fuel hfuel
    obtain ⟨fuel, rfl⟩ : ∃ n, fuel = n + 1 := ⟨fuel - 1, by simp at hfuel; omega⟩
    simp only [List.append_assoc, List.cons_append, List.length_append, List.length_cons] at hfuel ⊢
    have hname : readName (cs ++ (ws ++ '.' :: (ws' ++ (ds ++ rest)))) = .ok (name, _) :=
      h.readName (hws.head_bare (by rintro _ ⟨⟩; rfl))
    have hnames : Toml.readNames fuel (ds ++ rest) = .ok (path, last, rest) := ih (by omega)
    rw [Toml.readNames, hname]
    simp only [bind, Except.bind, hws.skip_cons (c := '.') rfl, hws'.skip (hmore.head rest), hnames]
    rfl

/-- What is read as the names of a key was written as such. -/
theorem exists_of_readNames {path : List String} {last : String} : ∀ {fuel cs},
    readNames fuel cs = .ok (path, last, rest) →
      ∃ ds, SpellsNames path last ds ∧ cs = ds ++ rest := by
  intro fuel
  induction fuel generalizing path with
  | zero => exact nofun
  | succ fuel ih =>
    intro cs h
    rw [readNames] at h
    obtain ⟨⟨name, after⟩, hname, hmore⟩ := bind_eq_ok h
    obtain ⟨ds, hds, rfl⟩ := exists_of_readName hname
    obtain ⟨ws, hws, hafter⟩ := exists_skipBlanks after
    simp only at hmore
    split at hmore
    · next after' heq =>
      obtain ⟨⟨path', last', _⟩, hread, hend⟩ := bind_eq_ok hmore
      cases hend
      obtain ⟨ws', hws', hafter'⟩ := exists_skipBlanks after'
      obtain ⟨ds', hds', heq'⟩ := ih hread
      refine ⟨_, .cons hds hws hws' hds', ?_⟩
      rw [hafter, heq, hafter', heq']
      simp
    · cases hmore
      exact ⟨_, .last hds hws, by rw [List.append_assoc, ← hafter]⟩

theorem readNames_ne_hugeInteger : ∀ (fuel : Nat) (cs : List Char),
    readNames fuel cs ≠ .error .hugeInteger
  | 0, _ => nofun
  | fuel + 1, cs => by
    intro h
    rw [readNames] at h
    rcases bind_eq_error h with hname | ⟨⟨name, after⟩, _, hmore⟩
    · exact readName_ne_hugeInteger cs hname
    · simp only at hmore
      split at hmore
      · rcases bind_eq_error hmore with hread | ⟨_, _, hend⟩
        · exact readNames_ne_hugeInteger fuel _ hread
        · cases hend
      · cases hmore

/-- **A key is read as the grammar says**, up to where the blanks after it end. -/
theorem SpellsKey.readKey {key : Key} (h : SpellsKey key ds) (hrest : EndsKey rest) :
    readKey (ds ++ rest) = .ok (key, rest) := by
  have hfuel : ds.length ≤ (ds ++ rest).length := by simp
  rw [Toml.readKey, SpellsNames.readNames h hrest hfuel]
  rfl

/-- **What is read as a key was written as one.** -/
theorem exists_of_readKey {key : Key} (h : readKey cs = .ok (key, rest)) :
    ∃ ds, SpellsKey key ds ∧ cs = ds ++ rest := by
  obtain ⟨⟨path, name, _⟩, hread, heq⟩ := map_eq_ok h
  cases heq
  exact exists_of_readNames hread

theorem readKey_ne_hugeInteger (cs : List Char) : readKey cs ≠ .error .hugeInteger :=
  fun h => readNames_ne_hugeInteger _ _ (map_eq_error h)

end Ancestry.Toml
