import Mathlib.Data.List.TakeWhile
import Ancestry.Command.Run

/-!
# The settings of a run

A setting of a run is what the command line says, and where it says nothing, what the configuration
file says.  Each is found without regard to the others (`get?_merge_given`).
-/

namespace Ancestry

/-! ## 1. Entries under text keys -/

namespace Value

/-- Only a text is the same key as a text. -/
theorem sameKey_text_iff (key : Value) (name : String) :
    key.sameKey (.text name) = true ↔ key.text? = some name := by
  cases key with
  | text s =>
    simp only [sameKey, text?, beq_iff_eq]
    exact eq_comm
  | branded s =>
    simp only [sameKey, text?, beq_iff_eq]
    exact eq_comm
  | _ => simp [sameKey, text?, number?]

/-- What is put under a name is found under it, and nothing changes under other names. -/
theorem find?_put (entries : List (Value × Value)) (name other : String) (v : Value) :
    find? (put entries (.text name) v) other =
      if name = other then some v else find? entries other := by
  induction entries with
  | nil => simp [put, find?, text?]
  | cons e entries ih =>
    obtain ⟨key, w⟩ := e
    rw [put]
    by_cases hsame : key.sameKey (.text name) = true
    · have hkey := (sameKey_text_iff key name).mp hsame
      rw [if_pos hsame, find?, find?, hkey]
      by_cases hname : name = other <;> simp [hname]
    · have hkey : key.text? ≠ some name := mt (sameKey_text_iff key name).mpr hsame
      rw [if_neg hsame, find?, find?, ih]
      by_cases hname : name = other
      · subst hname
        simp [hkey]
      · simp [hname]

end Value

namespace Command

/-! ## 2. What is given and what is not -/

/-- **What a run goes by**: for each setting the command line, and in its silence the configuration
file. -/
theorem get?_merge_given (corePrefix : Option String) (jobs : Option Nat) (dotted : Option Bool)
    (defaults : Settings) :
    let settings := Settings.merge (givenSettings corePrefix jobs dotted) defaults
    settings.get? "core_prefix" = (corePrefix.map .text).or (defaults.get? "core_prefix") ∧
      settings.get? "jobs" = (jobs.map fun n => .int n).or (defaults.get? "jobs") ∧
      settings.get? "dotted_names" = (dotted.map .bool).or (defaults.get? "dotted_names") := by
  cases corePrefix <;> cases jobs <;> cases dotted <;>
    simp [Settings.merge, givenSettings, Settings.get?, Value.find?_put]

/-- The form of names has no influence on other settings. -/
theorem settings_dotted (corePrefix : Option String) (jobs : Option Nat) (dotted : Bool)
    (defaults : Settings) :
    let settings := Settings.merge (givenSettings corePrefix jobs (some dotted)) defaults
    settings.dottedNames = dotted ∧ ∀ dotted',
      let settings' := Settings.merge (givenSettings corePrefix jobs dotted') defaults
      settings'.coreNamespace = settings.coreNamespace ∧ settings'.jobs = settings.jobs := by
  intro settings
  obtain ⟨hstem, hjobs, hdotted⟩ := get?_merge_given corePrefix jobs (some dotted) defaults
  refine ⟨?_, fun dotted' => ?_⟩
  · simp only [settings, Settings.dottedNames, hdotted]
    rfl
  · obtain ⟨hstem', hjobs', _⟩ := get?_merge_given corePrefix jobs dotted' defaults
    simp only [settings, Settings.coreNamespace, Settings.jobs, hstem, hstem', hjobs, hjobs',
      and_self]

/-- The types that the request asks about. -/
def AncestorsRequest.typeNames (request : AncestorsRequest) (dotted : Bool) : List TypeName :=
  request.types.map (Document.typeName dotted)

theorem typeNames_eq (request : AncestorsRequest) (dotted : Bool) :
    (if dotted then request.types.map internalName else request.types) =
      request.typeNames dotted := by
  cases dotted with
  | true => rfl
  | false => exact (List.map_id _).symm

/-! ## 3. What a setting has to be -/

theorem trimChars_eq_nil_iff {cs : List Char} :
    Text.trimChars cs = [] ↔ ∀ c ∈ cs, Text.isBlank c = true := by
  rw [Text.trimChars, List.reverse_eq_nil_iff, List.dropWhile_eq_nil_iff]
  simp only [List.mem_reverse]
  induction cs with
  | nil => simp
  | cons c cs ih =>
    rw [List.dropWhile_cons, List.forall_mem_cons]
    by_cases hc : Text.isBlank c = true
    · rw [if_pos hc, ih, and_iff_right hc]
    · rw [if_neg hc, List.forall_mem_cons]

/-- A text is more than white space if something is left of it when it is trimmed. -/
theorem trim_eq_empty_iff {s : String} :
    Text.trim s = "" ↔ ∀ c ∈ s.toList, Text.isBlank c = true := by
  rw [← trimChars_eq_nil_iff, Text.trim, String.ofList_eq_empty_iff]

/-- A broken rule is told of by its reason. -/
theorem message_rule {reason : String} {details : List (String × Value)}
    (h : ¬ details.any (·.1 == reasonName) = true) :
    (Fault.rule reason details).message = reason := by
  rw [Fault.rule, if_neg h]
  rfl

/-- A text that is more than white space makes a namespace. -/
theorem coreNamespace_ok {settings : Settings} (h : ∀ v, settings.get? "core_prefix" = some v →
    ∃ s, v = .text s ∧ ∃ c ∈ s.toList, Text.isBlank c = false) :
    ∃ space, settings.coreNamespace = .ok space := by
  unfold Settings.coreNamespace
  cases hget : settings.get? "core_prefix" with
  | none => exact ⟨_, rfl⟩
  | some v =>
    obtain ⟨s, rfl, c, hc, hblank⟩ := h v hget
    have htrim : ¬ (Text.trim s).isEmpty = true := by
      rw [String.isEmpty_iff, trim_eq_empty_iff]
      exact fun hall => absurd (hall c hc) (by simp [hblank])
    exact ⟨⟨internalName (Text.trim s)⟩, by simp [Value.text?, CoreNamespace.ofValue, htrim]⟩

/-- Everything else is refused. -/
theorem coreNamespace_error {settings : Settings} {v : Value}
    (hget : settings.get? "core_prefix" = some v)
    (h : ¬ ∃ s, v = .text s ∧ ∃ c ∈ s.toList, Text.isBlank c = false) :
    ∃ fault, settings.coreNamespace = .error fault ∧
      fault.message ∈ ["invalid core_prefix", "invalid core namespace prefix"] := by
  have hrefused : CoreNamespace.ofValue v =
      .error (.rule "invalid core namespace prefix" [("prefix", v)]) := by
    cases v with
    | text s =>
      have htrim : (Text.trim s).isEmpty = true := by
        rw [String.isEmpty_iff, trim_eq_empty_iff]
        intro c hc
        refine Classical.byContradiction fun hblank => h ⟨s, rfl, c, hc, ?_⟩
        exact Bool.eq_false_iff.mpr hblank
      rw [CoreNamespace.ofValue, if_pos htrim]
    | _ => rfl
  by_cases htext : v.text?.isSome = true
  · refine ⟨.rule "invalid core namespace prefix" [("prefix", v)], ?_, ?_⟩
    · simp only [Settings.coreNamespace, hget, htext, if_true, hrefused]
    · rw [message_rule (by simp; decide)]
      simp
  · refine ⟨.rule "invalid core_prefix" [("core_prefix", v)], ?_, ?_⟩
    · simp only [Settings.coreNamespace, hget, if_neg htext]
    · rw [message_rule (by simp; decide)]
      simp

/-- A positive integer is a number of workers. -/
theorem jobs_ok {settings : Settings}
    (h : ∀ v, settings.get? "jobs" = some v → ∃ n : Int, 0 < n ∧ v = .int n) :
    ∃ n, settings.jobs = .ok n := by
  unfold Settings.jobs
  cases hget : settings.get? "jobs" with
  | none => exact ⟨_, rfl⟩
  | some v =>
    obtain ⟨n, hpos, rfl⟩ := h v hget
    cases n with
    | ofNat n =>
      cases n with
      | zero => exact absurd hpos (by decide)
      | succ n => exact ⟨n + 1, rfl⟩
    | negSucc n => exact absurd hpos (by simp)

theorem jobs_error {settings : Settings} {v : Value} (hget : settings.get? "jobs" = some v)
    (h : ¬ ∃ n : Int, 0 < n ∧ v = .int n) :
    ∃ fault, settings.jobs = .error fault ∧ fault.message = "invalid jobs" := by
  refine ⟨.rule "invalid jobs" [("jobs", v)], ?_, message_rule (by simp; decide)⟩
  unfold Settings.jobs
  rw [hget]
  split
  · next heq => cases heq
  · next n heq => exact absurd ⟨_, by simp, Option.some.inj heq⟩ h
  · next heq => cases heq; rfl

end Command
end Ancestry
