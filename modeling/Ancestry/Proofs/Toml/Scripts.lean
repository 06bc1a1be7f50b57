import Ancestry.Proofs.Toml.Recognized

/-!
# Configuration files are read as the grammar says

A file is read line by line, and an error does not keep the statements in front of it from being
carried out.  So two things decide what becomes of a text: the statements up to the first place that
does not follow the grammar, and whether they contradict each other.

* `read_eq_ok_iff`: a table is read from a text exactly if the text is a script of which the
  statements build that table.
* `read_eq_hugeInteger_iff`: the reader stops at an integer of too many digits exactly if the text
  follows the grammar up to one, and the statements in front of it can be carried out.

Every other text is malformed.
-/

namespace Ancestry.Toml

open Text (after?)

variable {cs ds ks us ws rest : List Char} {key : Key} {s : Statement} {fuel : Nat}

/-! ## 1. Statements -/

/-- A statement that is no header. -/
theorem readStatement_key (hkey : SpellsKey key ks) (hws : Blanks ws)
    (hcs : ∀ c ∈ cs.head?, isBlank c = false) :
    readStatement (ks ++ '=' :: (ws ++ cs)) =
      (readValue (2 * (ws ++ cs).length + 2) cs).map fun p => (.assign key p.1, p.2) := by
  have hread := hkey.readKey (endsKey_equals (ws ++ cs))
  obtain ⟨c, us, rfl, _, hc⟩ := SpellsNames.exists_cons hkey
  have hbracket : c ≠ '[' := fun heq => hc (by simp [heq])
  rw [List.cons_append] at hread ⊢
  unfold readStatement
  split
  · next heq => exact absurd (List.cons.inj heq).1 hbracket
  · next heq => exact absurd (List.cons.inj heq).1 hbracket
  · simp only [hread, bind, Except.bind, after?_cons, hws.skip hcs]
    cases readValue (2 * (ws ++ cs).length + 2) cs <;> rfl

theorem endsKey_bracket (cs : List Char) : EndsKey (']' :: cs) := ⟨_, _, rfl, .inr rfl⟩

/-- The header of a table is read up to its bracket.  It is not taken for one of an array of tables,
as its key does not begin with a bracket. -/
theorem readStatement_declare (hws : Blanks ws) (hkey : SpellsKey key ks) (rest : List Char) :
    readStatement ('[' :: (ws ++ (ks ++ ']' :: rest))) = .ok (.declare key, rest) := by
  have hread := hkey.readKey (endsKey_bracket rest)
  have hskip : skipBlanks (ws ++ (ks ++ ']' :: rest)) = ks ++ ']' :: rest :=
    hws.skip (SpellsNames.head hkey _)
  have hbracket : ∀ after, ws ++ (ks ++ ']' :: rest) ≠ '[' :: after := by
    intro after heq
    cases ws with
    | nil =>
      obtain ⟨c, us, rfl, _, hc⟩ := SpellsNames.exists_cons hkey
      exact hc (by rw [(List.cons.inj heq).1]; decide)
    | cons c ws =>
      have hc := hws c List.mem_cons_self
      rw [(List.cons.inj heq).1] at hc
      cases hc
  unfold readStatement
  split
  · next heq => exact absurd (List.cons.inj heq).2 (hbracket _)
  · next heq =>
    cases heq
    simp only [hskip, hread, bind, Except.bind, after?_cons]
    rfl
  · next hne => exact absurd rfl (hne _)

/-- The header of an array of tables is read up to both its brackets. -/
theorem readStatement_append (hws : Blanks ws) (hkey : SpellsKey key ks) (rest : List Char) :
    readStatement ('[' :: '[' :: (ws ++ (ks ++ ']' :: ']' :: rest))) = .ok (.append key, rest) := by
  have hread := hkey.readKey (endsKey_bracket (']' :: rest))
  have hskip : skipBlanks (ws ++ (ks ++ ']' :: ']' :: rest)) = ks ++ ']' :: ']' :: rest :=
    hws.skip (SpellsNames.head hkey _)
  have hend : after? [']', ']'] (']' :: ']' :: rest) = some rest :=
    Text.after?_append [']', ']'] rest
  simp only [readStatement, hskip, hread, bind, Except.bind, hend]
  rfl

/-- **A statement is read as the grammar says.** -/
theorem SpellsStatement.readStatement (h : SpellsStatement s us) (hrest : Follows rest) :
    readStatement (us ++ rest) = .ok (s, rest) := by
  cases h with
  | @assign key v ks ws cs hkey hws hv =>
    have hread := hv.isRead rest (2 * (ws ++ (cs ++ rest)).length + 2) hrest
      (by simp only [List.length_append]; omega)
    simp only [List.append_assoc, List.cons_append]
    rw [readStatement_key hkey hws (hv.begins.append _).head, hread]
    rfl
  | declare hws hkey =>
    simpa using readStatement_declare hws hkey rest
  | append hws hkey =>
    simpa using readStatement_append hws hkey rest

/-- **What is read as a statement was written as one.** -/
theorem exists_of_readStatement (h : readStatement cs = .ok (s, rest)) :
    ∃ us, SpellsStatement s us ∧ cs = us ++ rest := by
  unfold Toml.readStatement at h
  split at h
  · next after =>
    obtain ⟨⟨key, afterKey⟩, hkey, hmore⟩ := bind_eq_ok h
    obtain ⟨ws, hws, hafter⟩ := exists_skipBlanks after
    obtain ⟨ks, hks, heq⟩ := exists_of_readKey hkey
    simp only at hmore
    split at hmore
    · next hend =>
      cases hmore
      refine ⟨_, .append hws hks, ?_⟩
      rw [hafter, heq, Text.eq_append_of_after? hend]
      simp
    · cases hmore
  · next after _ =>
    obtain ⟨⟨key, afterKey⟩, hkey, hmore⟩ := bind_eq_ok h
    obtain ⟨ws, hws, hafter⟩ := exists_skipBlanks after
    obtain ⟨ks, hks, heq⟩ := exists_of_readKey hkey
    simp only at hmore
    split at hmore
    · next hend =>
      cases hmore
      refine ⟨_, .declare hws hks, ?_⟩
      rw [hafter, heq, Text.eq_append_of_after? hend]
      simp
    · cases hmore
  · obtain ⟨⟨key, afterKey⟩, hkey, hmore⟩ := bind_eq_ok h
    obtain ⟨ks, hks, rfl⟩ := exists_of_readKey hkey
    simp only at hmore
    split at hmore
    · next after hequals =>
      obtain ⟨⟨v, afterValue⟩, hv, hend⟩ := bind_eq_ok hmore
      cases hend
      obtain ⟨ws, hws, hafter⟩ := exists_skipBlanks after
      obtain ⟨ds, hds, heq⟩ := (recognizes _).value hv
      have hequals' : afterKey = '=' :: after := Text.eq_append_of_after? hequals
      refine ⟨_, .assign hks hws hds, ?_⟩
      rw [hequals', hafter, heq]
      simp
    · cases hmore

/-- A statement is not read for an integer exactly if its value comes to one of too many digits. -/
theorem readStatement_eq_hugeInteger_iff : readStatement cs = .error .hugeInteger ↔
    ∃ key ks ws after, SpellsKey key ks ∧ Blanks ws ∧ Overruns .value after ∧
      cs = ks ++ '=' :: (ws ++ after) := by
  constructor
  · intro h
    unfold Toml.readStatement at h
    split at h
    · rcases bind_eq_error h with hkey | ⟨⟨key, afterKey⟩, _, hmore⟩
      · exact absurd hkey (readKey_ne_hugeInteger _)
      · simp only at hmore
        split at hmore <;> cases hmore
    · rcases bind_eq_error h with hkey | ⟨⟨key, afterKey⟩, _, hmore⟩
      · exact absurd hkey (readKey_ne_hugeInteger _)
      · simp only at hmore
        split at hmore <;> cases hmore
    · rcases bind_eq_error h with hkey | ⟨⟨key, afterKey⟩, hkey, hmore⟩
      · exact absurd hkey (readKey_ne_hugeInteger _)
      obtain ⟨ks, hks, rfl⟩ := exists_of_readKey hkey
      simp only at hmore
      split at hmore
      · next after hequals =>
        rcases bind_eq_error hmore with hv | ⟨_, _, hend⟩
        · obtain ⟨ws, hws, hafter⟩ := exists_skipBlanks after
          have hequals' : afterKey = '=' :: after := Text.eq_append_of_after? hequals
          refine ⟨key, ks, ws, _, hks, hws, (refuses _).value hv, ?_⟩
          rw [hequals', ← hafter]
        · cases hend
      · cases hmore
  · rintro ⟨key, ks, ws, after, hkey, hws, hafter, rfl⟩
    have hread := hafter.isRefused (2 * (ws ++ after).length + 2)
      (by simp only [List.length_append]; omega)
    rw [readStatement_key hkey hws hafter.begins.head, hread]
    rfl

/-- A statement does not begin as an idle line does. -/
theorem SpellsStatement.exists_cons (h : SpellsStatement s us) :
    ∃ c us', us = c :: us' ∧ isBlank c = false ∧ c ∉ ['\n', '#'] := by
  cases h with
  | assign hkey =>
    obtain ⟨c, us, rfl, hblank, hc⟩ := SpellsNames.exists_cons hkey
    refine ⟨c, _, rfl, hblank, fun hmem => hc ?_⟩
    simp only [List.mem_cons, List.not_mem_nil, or_false] at hmem ⊢
    rcases hmem with h | h <;> simp [h]
  | declare => exact ⟨_, _, rfl, by decide⟩
  | append => exact ⟨_, _, rfl, by decide⟩

/-! ## 2. The ends of lines -/

theorem skipBlanks_skipBlanks (cs : List Char) : skipBlanks (skipBlanks cs) = skipBlanks cs :=
  Text.dropWhile_of_head (head_skipBlanks cs)

/-- Blanks that are passed over already do not matter to the end of a line. -/
theorem endLine_skipBlanks (cs : List Char) : endLine (skipBlanks cs) = endLine cs := by
  rw [endLine, endLine, skipBlanks_skipBlanks]

/-- A line ends with its break, or with the text. -/
theorem LineEnd.endLine_break (h : LineEnd us) (rest : List Char) :
    endLine (us ++ '\n' :: rest) = .ok rest := by
  cases h with
  | blanks hws =>
    have hcomment : skipComment ('\n' :: rest) = .ok ('\n' :: rest) := rfl
    simp only [endLine, hws.skip_cons (c := '\n') rfl, hcomment, bind, Except.bind]
    rfl
  | comment hws hds =>
    simp only [endLine, List.append_assoc, List.cons_append, hws.skip_cons (c := '#') rfl,
      hds.skip_break, bind, Except.bind]
    rfl

/-- The last line of a text need not have a break. -/
theorem LineEnd.endLine (h : LineEnd us) : endLine us = .ok [] := by
  cases h with
  | blanks hws =>
    have hskip : skipBlanks us = [] := by
      rw [← List.append_nil us]
      exact hws.skip nofun
    have hcomment : skipComment [] = .ok [] := rfl
    simp only [Toml.endLine, hskip, hcomment, bind, Except.bind]
    rfl
  | @comment ws ds hws hds =>
    have hcomment : skipComment ('#' :: ds) = .ok [] := by
      rw [← List.append_nil ds]
      exact hds.skip nofun
    simp only [Toml.endLine, hws.skip_cons (c := '#') rfl, hcomment, bind, Except.bind]
    rfl

/-- What comes after a line: nothing, or a line break and the rest. -/
def LineBreak (tail rest : List Char) : Prop := tail = [] ∧ rest = [] ∨ tail = '\n' :: rest

/-- Where a line has been ended there was the end of a line. -/
theorem exists_of_endLine (h : endLine cs = .ok rest) :
    ∃ us tail, LineEnd us ∧ LineBreak tail rest ∧ cs = us ++ tail := by
  obtain ⟨after, hcomment, hend⟩ := bind_eq_ok h
  have hbreak : LineBreak after rest := by
    split at hend
    · cases hend
      exact .inl ⟨rfl, rfl⟩
    · cases hend
      exact .inr rfl
    · cases hend
  obtain ⟨ws, hws, hcs⟩ := exists_skipBlanks cs
  by_cases hhash : ∃ ds, skipBlanks cs = '#' :: ds
  · obtain ⟨ds, hds⟩ := hhash
    rw [hds] at hcomment hcs
    obtain ⟨us, hus, rfl, _⟩ := exists_of_skipComment hcomment
    exact ⟨_, after, .comment hws hus, hbreak, by rw [hcs]; simp⟩
  · have hhead : ∀ c ∈ (skipBlanks cs).head?, c ≠ '#' := by
      rintro c hc rfl
      cases hskip : skipBlanks cs with
      | nil => rw [hskip] at hc; cases hc
      | cons d ds => rw [hskip] at hc; cases hc; exact hhash ⟨ds, hskip⟩
    rw [skipComment_of_head hhead] at hcomment
    cases hcomment
    exact ⟨ws, _, .blanks hws, hbreak, hcs⟩

theorem endLine_ne_hugeInteger (cs : List Char) : endLine cs ≠ .error .hugeInteger := by
  intro h
  rcases bind_eq_error h with hcomment | ⟨after, _, hend⟩
  · exact skipComment_ne_hugeInteger _ hcomment
  · split at hend <;> cases hend

/-- Blanks in front of the end of a line belong to it. -/
theorem LineEnd.cons_blanks (h : LineEnd us) (hws : Blanks ws) : LineEnd (ws ++ us) := by
  have happend : ∀ {ws'}, Blanks ws' → Blanks (ws ++ ws') := fun hws' c hc =>
    (List.mem_append.mp hc).elim (hws c) (hws' c)
  cases h with
  | blanks hus => exact .blanks (happend hus)
  | comment hus hds =>
    rw [← List.append_assoc]
    exact .comment (happend hus) hds

/-- After a value comes the end of its line. -/
theorem LineEnd.follows (h : LineEnd us) (hrest : Follows rest) : Follows (us ++ rest) := by
  cases h with
  | blanks hws => exact hws.follows hrest
  | comment hws =>
    rw [List.append_assoc]
    exact hws.follows (follows_cons (by decide) _)

/-- A line without a statement is idle, and no other line is. -/
theorem LineEnd.isIdleLine (h : LineEnd us) (hrest : ∀ c ∈ rest.head?, c = '\n') :
    isIdleLine (skipBlanks (us ++ rest)) = true := by
  cases h with
  | blanks hws =>
    rw [hws.skip fun c hc => by rw [hrest c hc]; rfl]
    cases rest with
    | nil => rfl
    | cons c rest => simp [Toml.isIdleLine, hrest c rfl]
  | comment hws =>
    rw [List.append_assoc, List.cons_append, hws.skip_cons (c := '#') rfl]
    rfl

/-- A line on which a statement begins is not idle. -/
theorem SpellsStatement.isIdleLine (h : SpellsStatement s us) (rest : List Char) :
    isIdleLine (us ++ rest) = false := by
  obtain ⟨c, us, rfl, _, hc⟩ := h.exists_cons
  simpa [Toml.isIdleLine] using hc

/-! ## 3. Lines -/

/-- The script with the statement of a line in front, if there is one. -/
def Script.after (s : Option Statement) (script : Script) : Script :=
  { script with statements := s.toList ++ script.statements }

theorem readScript_nil (fuel : Nat) : readScript (fuel + 1) [] = ⟨[], none⟩ := by
  rw [readScript]
  exact nofun

/-- The script of a text from what comes after the blanks of its first line on. -/
def scriptOfLine (fuel : Nat) (line : List Char) : Script :=
  if isIdleLine line then
    match endLine line with
    | .error e => ⟨[], some e⟩
    | .ok rest => readScript fuel rest
  else
    match readStatement line with
    | .error e => ⟨[], some e⟩
    | .ok (s, rest) =>
      match endLine rest with
      | .error e => ⟨[s], some e⟩
      | .ok rest => (readScript fuel rest).cons s

/-- Every other text is read line by line. -/
theorem readScript_cons (hne : cs ≠ []) (fuel : Nat) :
    readScript (fuel + 1) cs = scriptOfLine fuel (skipBlanks cs) := by
  cases cs with
  | nil => exact absurd rfl hne
  | cons c cs =>
    rw [readScript]
    · rfl
    · exact hne

/-- A line is read up to where the next one begins, or the text ends. -/
theorem SpellsLineOf.readScript_append {s : Option Statement} {tail : List Char}
    (h : SpellsLineOf s us) (hend : LineBreak tail rest)
    (hne : us ++ tail ≠ []) (fuel : Nat) :
    readScript (fuel + 1) (us ++ tail) = (readScript fuel rest).after s := by
  have hhead : ∀ c ∈ tail.head?, c = '\n' := by
    rcases hend with ⟨rfl, _⟩ | rfl
    · exact nofun
    · rintro _ ⟨⟩
      rfl
  have hline : ∀ {es}, LineEnd es → endLine (es ++ tail) = .ok rest := by
    rcases hend with ⟨rfl, rfl⟩ | rfl
    · exact fun hes => by rw [List.append_nil]; exact hes.endLine
    · exact fun hes => hes.endLine_break rest
  rw [readScript_cons hne, scriptOfLine]
  cases h with
  | idle h =>
    rw [if_pos (h.isIdleLine hhead), endLine_skipBlanks, hline h]
    rfl
  | @statement s ws cs es hws h hes =>
    have hfollows : Follows (es ++ tail) :=
      hes.follows (follows_of_head fun c hc => by rw [hhead c hc]; decide)
    have hskip : skipBlanks (ws ++ (cs ++ es) ++ tail) = cs ++ (es ++ tail) := by
      rw [List.append_assoc, List.append_assoc]
      obtain ⟨c, us, rfl, hblank, _⟩ := h.exists_cons
      exact hws.skip (by rintro _ ⟨⟩; exact hblank)
    rw [hskip, h.isIdleLine, if_neg Bool.false_ne_true, h.readStatement hfollows]
    simp only [hline hes]
    rfl

/-- What becomes of a line and of the lines after it: it is malformed, or a statement or none is
read from it, or it comes to an integer of too many digits. -/
inductive LineRead (fuel : Nat) (cs : List Char) : Script → Prop
  | malformed (ss : List Statement) : LineRead fuel cs ⟨ss, some .malformed⟩
  | line {s : Option Statement} {us tail rest : List Char} (hus : SpellsLineOf s us)
    (hend : LineBreak tail rest) (hcs : cs = us ++ tail) :
    LineRead fuel cs ((readScript fuel rest).after s)
  | overlong (h : Overlong [] cs) : LineRead fuel cs ⟨[], some .hugeInteger⟩

/-- A line without a statement. -/
theorem lineRead_idle (hws : Blanks ws) (hcs : cs = ws ++ ds) (hidle : isIdleLine ds = true)
    (fuel : Nat) : LineRead fuel cs (scriptOfLine fuel ds) := by
  rw [scriptOfLine, if_pos hidle]
  cases hend : endLine ds with
  | error e =>
    cases e with
    | malformed => exact .malformed []
    | hugeInteger => exact absurd hend (endLine_ne_hugeInteger _)
  | ok rest =>
    obtain ⟨es, tail, hes, hbreak, rfl⟩ := exists_of_endLine hend
    exact .line (.idle (hes.cons_blanks hws)) hbreak (by rw [hcs, List.append_assoc])

/-- A line on which a statement begins. -/
theorem lineRead_statement (hws : Blanks ws) (hcs : cs = ws ++ ds) (hidle : ¬ isIdleLine ds = true)
    (fuel : Nat) : LineRead fuel cs (scriptOfLine fuel ds) := by
  rw [scriptOfLine, if_neg hidle]
  cases hstatement : readStatement ds with
  | error e =>
    cases e with
    | malformed => exact .malformed []
    | hugeInteger =>
      obtain ⟨key, ks, ws', after, hkey, hws', hafter, rfl⟩ :=
        readStatement_eq_hugeInteger_iff.mp hstatement
      exact .overlong (hcs ▸ .here hws hkey hws' hafter)
  | ok p =>
    obtain ⟨s, afterStatement⟩ := p
    obtain ⟨us, hus, rfl⟩ := exists_of_readStatement hstatement
    cases hend : endLine afterStatement with
    | error e =>
      cases e with
      | malformed =>
        simp only [hend]
        exact .malformed [s]
      | hugeInteger => exact absurd hend (endLine_ne_hugeInteger _)
    | ok rest =>
      obtain ⟨es, tail, hes, hbreak, rfl⟩ := exists_of_endLine hend
      simp only [hend]
      exact .line (.statement hws hus hes) hbreak (by rw [hcs]; simp only [List.append_assoc])

/-- **What becomes of a line** that is read, whatever it is. -/
theorem lineRead_readScript (hne : cs ≠ []) (fuel : Nat) :
    LineRead fuel cs (readScript (fuel + 1) cs) := by
  obtain ⟨ws, hws, hcs⟩ := exists_skipBlanks cs
  rw [readScript_cons hne]
  by_cases hidle : isIdleLine (skipBlanks cs) = true
  · exact lineRead_idle hws hcs hidle fuel
  · exact lineRead_statement hws hcs hidle fuel

/-! ## 4. Scripts -/

theorem SpellsLineOf.eq_none {s : Option Statement} (h : SpellsLineOf s us) (hnil : us = []) :
    s = none := by
  cases h with
  | idle => rfl
  | statement _ h =>
    obtain ⟨c, us, rfl, _⟩ := h.exists_cons
    simp at hnil

theorem SpellsScript.nil : SpellsScript [] [] := .last (.idle (.blanks blanks_nil))

/-- **Whatever follows the grammar is read.** -/
theorem SpellsScript.readScript {ss : List Statement} (h : SpellsScript ss cs) :
    ∀ {fuel}, cs.length < fuel → readScript fuel cs = ⟨ss, none⟩ := by
  induction h with
  | @last s cs h =>
    intro fuel hfuel
    cases cs with
    | nil =>
      obtain ⟨fuel, rfl⟩ : ∃ n, fuel = n + 1 := ⟨fuel - 1, by simp at hfuel; omega⟩
      rw [readScript_nil, h.eq_none rfl]
      rfl
    | cons c cs =>
      obtain ⟨fuel, rfl⟩ : ∃ n, fuel = n + 2 := ⟨fuel - 2, by simp at hfuel; omega⟩
      have hread := h.readScript_append (.inl ⟨rfl, rfl⟩) (by simp) (fuel + 1)
      rw [List.append_nil, readScript_nil] at hread
      rw [hread, Script.after, List.append_nil]
  | @cons s ss cs ds h _ ih =>
    intro fuel hfuel
    obtain ⟨fuel, rfl⟩ : ∃ n, fuel = n + 1 := ⟨fuel - 1, by omega⟩
    rw [h.readScript_append (.inr rfl) (by simp), ih (by simp at hfuel; omega)]
    rfl

/-- **What is read as a script was written as one.** -/
theorem spellsScript_of_readScript {ss : List Statement} : ∀ {fuel cs},
    readScript fuel cs = ⟨ss, none⟩ → SpellsScript ss cs := by
  intro fuel
  induction fuel generalizing ss with
  | zero => exact nofun
  | succ fuel ih =>
    intro cs h
    by_cases hne : cs = []
    · subst hne
      rw [readScript_nil] at h
      cases h
      exact .nil
    have hline := lineRead_readScript hne fuel
    generalize readScript (fuel + 1) cs = found at h hline
    cases hline with
    | malformed => cases h
    | overlong => cases h
    | @line s us tail rest hus hend hcs =>
      rcases hscript : readScript fuel rest with ⟨ss', error⟩
      rw [hscript] at h
      cases h
      have hrest := ih hscript
      -- At the end of the text it was the last line.  Otherwise the rest is a script, by the
      -- induction.
      rcases hend with ⟨rfl, rfl⟩ | rfl
      · cases fuel with
        | zero => cases hscript
        | succ fuel =>
          rw [readScript_nil] at hscript
          cases hscript
          rw [hcs, List.append_nil, List.append_nil]
          exact .last hus
      · exact hcs ▸ .cons hus hrest

theorem Overlong.ne_nil {ss : List Statement} (h : Overlong ss cs) : cs ≠ [] := by
  cases h <;> simp

/-- **Whatever follows the grammar up to an integer of too many digits is given up there.** -/
theorem Overlong.readScript {ss : List Statement} (h : Overlong ss cs) :
    ∀ {fuel}, cs.length < fuel → readScript fuel cs = ⟨ss, some .hugeInteger⟩ := by
  induction h with
  | @here key ws ks ws' cs hws hkey hws' h =>
    intro fuel hfuel
    obtain ⟨fuel, rfl⟩ : ∃ n, fuel = n + 1 := ⟨fuel - 1, by omega⟩
    have hskip : skipBlanks (ws ++ (ks ++ '=' :: (ws' ++ cs))) = ks ++ '=' :: (ws' ++ cs) :=
      hws.skip (SpellsNames.head hkey _)
    have hidle : isIdleLine (ks ++ '=' :: (ws' ++ cs)) = false := by
      obtain ⟨c, us, rfl, _, hc⟩ := SpellsNames.exists_cons hkey
      simp only [List.mem_cons, not_or] at hc
      simp [isIdleLine, hc]
    have hread : readStatement (ks ++ '=' :: (ws' ++ cs)) = .error .hugeInteger :=
      readStatement_eq_hugeInteger_iff.mpr ⟨key, ks, ws', cs, hkey, hws', h, rfl⟩
    rw [readScript_cons (by simp), scriptOfLine, hskip, hidle, if_neg Bool.false_ne_true, hread]
  | @later s ss cs ds h _ ih =>
    intro fuel hfuel
    obtain ⟨fuel, rfl⟩ : ∃ n, fuel = n + 1 := ⟨fuel - 1, by omega⟩
    rw [h.readScript_append (.inr rfl) (by simp), ih (by simp at hfuel; omega)]
    rfl

/-- **What is given up at an integer comes to one of too many digits.** -/
theorem overlong_of_readScript {ss : List Statement} : ∀ {fuel cs},
    readScript fuel cs = ⟨ss, some .hugeInteger⟩ → Overlong ss cs := by
  intro fuel
  induction fuel generalizing ss with
  | zero => exact nofun
  | succ fuel ih =>
    intro cs h
    by_cases hne : cs = []
    · subst hne
      rw [readScript_nil] at h
      cases h
    have hline := lineRead_readScript hne fuel
    generalize readScript (fuel + 1) cs = found at h hline
    cases hline with
    | malformed => cases h
    | overlong hover =>
      cases h
      exact hover
    | @line s us tail rest hus hend hcs =>
      rcases hscript : readScript fuel rest with ⟨ss', error⟩
      rw [hscript] at h
      cases h
      have hrest := ih hscript
      -- The last line cannot be the one, so the integer is in the rest.
      rcases hend with ⟨rfl, rfl⟩ | rfl
      · exact absurd rfl hrest.ne_nil
      · exact hcs ▸ .later hus hrest

/-! ## 5. Whole texts -/

/-- **What a text is read as**: the table that its statements build. -/
theorem read_eq_ok_iff {text : String} {entries : List (Value × Value)} :
    read text = .ok entries ↔ ∃ ss, SpellsScript ss text.toList ∧ build ss = some entries := by
  constructor
  · intro h
    unfold read at h
    rcases hscript : script text with ⟨ss, error⟩
    simp only [hscript] at h
    split at h
    · cases h
    · next hbuild =>
      split at h
      · cases h
      · next herror =>
        cases h
        exact ⟨ss, spellsScript_of_readScript hscript, hbuild⟩
  · rintro ⟨ss, hss, hbuild⟩
    have hscript : script text = ⟨ss, none⟩ := hss.readScript (Nat.lt_succ_self _)
    simp only [read, hscript, hbuild]

/-- **When an integer is in the way**: the text begins as a script does and comes to an integer of
too many digits, after statements that can be carried out. -/
theorem read_eq_hugeInteger_iff {text : String} : read text = .error .hugeInteger ↔
    ∃ ss, Overlong ss text.toList ∧ (build ss).isSome = true := by
  constructor
  · intro h
    unfold read at h
    rcases hscript : script text with ⟨ss, error⟩
    simp only [hscript] at h
    split at h
    · cases h
    · next hbuild =>
      split at h
      · next e herror =>
        cases h
        exact ⟨ss, overlong_of_readScript hscript, by rw [hbuild]; rfl⟩
      · cases h
  · rintro ⟨ss, hss, hbuild⟩
    have hscript : script text = ⟨ss, some .hugeInteger⟩ := hss.readScript (Nat.lt_succ_self _)
    obtain ⟨entries, hentries⟩ := Option.isSome_iff_exists.mp hbuild
    simp only [read, hscript, hentries]

end Ancestry.Toml
