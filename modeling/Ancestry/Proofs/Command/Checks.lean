import Mathlib
import Ancestry.Proofs.Command.Settings
import Ancestry.Proofs.Command.Sources
import Ancestry.Proofs.Settings.Load

/-!
# What a run checks, and in which order

A run has a list of conditions for its settings and its documents (`Request.checks`).  It succeeds
if all of them hold.  Otherwise nothing is printed, and what is written on the other output is about
the first condition that does not hold, whatever else is wrong with the input (`run_follows`).  The
conditions are about the files themselves, and no reading function occurs in them.

The order is not the order of the inputs: the names in the document of the core system are looked at
before those in the document with the supertypes, although that one is read first, and the number of
workers comes last.

What a run does not check is its configuration file.  One that holds no table sets nothing, but one
that is garbled, or comes to an integer of too many digits, breaks the run off before the first
check is made.
-/

namespace Ancestry.Command

open Closure (Arrangement)
open Document (Schema Entries Reads Shaped Tells)

/-! ## 1. Checks -/

/-- A condition for the input of a run, and what may be said of input that does not meet it. -/
structure Check where
  holds : Prop
  tells : String → Prop

namespace Check

/-- A condition for the sake of which input is refused as faulty. -/
def input (holds : Prop) (faults : List String) : Check where
  holds := holds
  tells message := ∃ fault ∈ faults, message = "Invalid input: " ++ fault

/-- The prefix of the names of core types, if one is set, is a text that is more than white
space. -/
def corePrefix (setting : Option Value) : Check :=
  input (∀ v, setting = some v → ∃ s, v = .text s ∧ ∃ c ∈ s.toList, Text.isBlank c = false)
    ["invalid core_prefix", "invalid core namespace prefix"]

/-- The number of workers, if one is set, is a positive integer. -/
def jobs (setting : Option Value) : Check :=
  input (∀ v, setting = some v → ∃ n : Int, 0 < n ∧ v = .int n) ["invalid jobs"]

/-- There is a file at the path.  If there is none, the path is told. -/
def found (path : String) (file : File) : Check where
  holds := file.isRegular = true
  tells message := message = "Hierarchy payload not found: " ++ path

/-- The file holds a document of the shape.  If it does not, the places at which it differs are
counted. -/
def shape (schema : Schema) (file : File) : Check where
  holds := ∃ entries, Shaped file schema entries
  tells message := ∃ complaints, Tells file schema complaints ∧
    message = "Invalid hierarchy payload: " ++ countFlaws complaints.length schema.title

/-- No name in the document is empty. -/
def names (schema : Schema) (file : File) : Check :=
  input (∀ entries, Shaped file schema entries → entries.Named)
    ["empty type_id", "empty " ++ schema.memberField]

end Check

/-- What a run checks before it answers a request, where `config` are the settings in the
configuration file.  A setting is taken from there only if the command line says nothing. -/
def Request.checks (request : Request) (config : Settings) (files : String → File) : List Check :=
  [.corePrefix ((request.corePrefix.map .text).or (config.get? "core_prefix")),
    .found request.supertypes (files request.supertypes),
    .shape .supertypes (files request.supertypes)] ++
  (request.core.elim [] fun path =>
    [.found path (files path), .shape .coreIndex (files path), .names .coreIndex (files path)]) ++
  [.names .supertypes (files request.supertypes)]

/-- The output is that of a run that makes the checks one after the other.  The run succeeds if all
hold.  Else its exit code is 2, nothing is printed, and the one line on the other output is about
the first check that does not hold. -/
structure Output.Follows (output : Output) (checks : List Check) : Prop where
  accepted_iff : output.exitCode = 0 ↔ ∀ c ∈ checks, c.holds
  refused : ∀ before c after, checks = before ++ c :: after → (∀ b ∈ before, b.holds) →
    ¬ c.holds → output.exitCode = 2 ∧ output.out = "" ∧
      ∃ message, c.tells message ∧ output.err = Text.plain message ++ "\n"

/-- The output is that of a run under a configuration file: it follows the checks for what the file
sets, and a file that sets nothing because it cannot be loaded breaks the run off. -/
structure Output.Heeds (output : Output) (config : File) (checks : Settings → List Check) :
    Prop where
  follows : ∀ settings, config.Sets settings → output.Follows (checks settings)
  breaks : config.IsGarbled ∨ config.IsLongScript → output.exitCode = 1 ∧ output.out = ""

/-! ## 2. Computations that make checks -/

section
variable {α β : Type} {P : α → Prop} {Q : β → Prop} {x : Except Failure α} {c : Check}
  {checks checks' : List Check}

/-- The checks decide how the computation ends.  If all hold, it has a result with the property `P`;
else it fails, and of the first that does not hold it tells. -/
def Governs (x : Except Failure α) (P : α → Prop) : List Check → Prop
  | [] => ∃ a, x = .ok a ∧ P a
  | c :: checks => (c.holds → Governs x P checks) ∧ (¬ c.holds →
      ∃ failure, x = .error failure ∧ failure.isRefusal = true ∧ c.tells failure.message)

/-- One computation after the other makes the checks of both. -/
theorem Governs.bind {f : α → Except Failure β} (h : Governs x P checks)
    (hf : ∀ a, P a → Governs (f a) Q checks') : Governs (x >>= f) Q (checks ++ checks') := by
  induction checks with
  | nil =>
    obtain ⟨a, rfl, ha⟩ := h
    exact hf a ha
  | cons c checks ih =>
    refine ⟨fun hc => ih (h.1 hc), fun hc => ?_⟩
    obtain ⟨failure, rfl, hfailure⟩ := h.2 hc
    exact ⟨failure, rfl, hfailure⟩

/-- A computation that does not fail makes no checks. -/
theorem Governs.next {f : α → Except Failure β} (h : Governs x P checks)
    (hf : ∀ a, P a → ∃ b, f a = .ok b ∧ Q b) : Governs (x >>= f) Q checks := by
  rw [← List.append_nil checks]
  exact h.bind hf

theorem Governs.accepted (h : Governs x P checks) (hall : ∀ c ∈ checks, c.holds) :
    ∃ a, x = .ok a ∧ P a := by
  induction checks with
  | nil => exact h
  | cons c checks ih =>
    obtain ⟨hc, hall⟩ := List.forall_mem_cons.mp hall
    exact ih (h.1 hc) hall

theorem Governs.refused {before after : List Check} (h : Governs x P (before ++ c :: after))
    (hbefore : ∀ b ∈ before, b.holds) (hc : ¬ c.holds) :
    ∃ failure, x = .error failure ∧ failure.isRefusal = true ∧ c.tells failure.message := by
  induction before with
  | nil => exact h.2 hc
  | cons b before ih =>
    obtain ⟨hb, hbefore⟩ := List.forall_mem_cons.mp hbefore
    exact ih (h.1 hb) hbefore

end

/-- If not all checks hold, there is a first that does not. -/
theorem exists_first {checks : List Check} (h : ¬ ∀ c ∈ checks, c.holds) :
    ∃ before c after, checks = before ++ c :: after ∧ (∀ b ∈ before, b.holds) ∧ ¬ c.holds := by
  induction checks with
  | nil => exact absurd (by simp) h
  | cons c checks ih =>
    by_cases hc : c.holds
    · have hrest : ¬ ∀ c ∈ checks, c.holds := fun hall => h (List.forall_mem_cons.mpr ⟨hc, hall⟩)
      obtain ⟨before, c', after, rfl, hbefore, hc'⟩ := ih hrest
      exact ⟨c :: before, c', after, rfl, List.forall_mem_cons.mpr ⟨hc, hbefore⟩, hc'⟩
    · exact ⟨[], c, checks, rfl, by simp, hc⟩

theorem err_refusal (message : String) :
    (Output.refusal message).err = Text.plain message ++ "\n" := by
  simp [Output.refusal, writeLines, String.join]

/-- **A run follows the checks** that govern its answer. -/
theorem Governs.follows {arrangement : Arrangement} {args : List String} {files : String → File}
    {invocation : Invocation} {checks : List Check}
    (hread : Invocation.read args = .ok invocation)
    (h : Governs (invocation.answer arrangement files) (·.exitCode = 0) checks) :
    (run arrangement args files).Follows checks := by
  have hrefused : ∀ before c after, checks = before ++ c :: after → (∀ b ∈ before, b.holds) →
      ¬ c.holds → ∃ message, c.tells message ∧ run arrangement args files = .refusal message := by
    rintro before c after rfl hbefore hc
    obtain ⟨failure, herror, hrefusal, htells⟩ := h.refused hbefore hc
    refine ⟨failure.message, htells, ?_⟩
    simp only [run, hread, herror, Failure.output, hrefusal, if_true]
  refine ⟨⟨fun hcode => ?_, fun hall => ?_⟩, fun before c after hchecks hbefore hc => ?_⟩
  · refine Classical.byContradiction fun hall => ?_
    obtain ⟨before, c, after, hchecks, hbefore, hc⟩ := exists_first hall
    obtain ⟨message, _, hrun⟩ := hrefused before c after hchecks hbefore hc
    rw [hrun] at hcode
    cases hcode
  · obtain ⟨output, hok, hcode⟩ := h.accepted hall
    simp only [run, hread, hok, hcode]
  · obtain ⟨message, htells, hrun⟩ := hrefused before c after hchecks hbefore hc
    rw [hrun]
    exact ⟨rfl, rfl, message, htells, err_refusal message⟩

/-! ## 3. The settings -/

theorem governs_coreNamespace (settings : Settings) :
    Governs (settings.coreNamespace.mapError .input) (fun _ => True)
      [.corePrefix (settings.get? "core_prefix")] := by
  refine ⟨fun h => ?_, fun h => ?_⟩
  · obtain ⟨space, hspace⟩ := coreNamespace_ok h
    exact ⟨space, by rw [hspace]; rfl, trivial⟩
  · obtain ⟨v, hv⟩ := not_forall.mp h
    obtain ⟨hget, hv⟩ := Classical.not_imp.mp hv
    obtain ⟨fault, hfault, hmessage⟩ := coreNamespace_error hget hv
    exact ⟨.input fault, by rw [hfault]; rfl, rfl, _, hmessage, rfl⟩

theorem governs_jobs (settings : Settings) :
    Governs (settings.jobs.mapError .input) (fun _ => True) [.jobs (settings.get? "jobs")] := by
  refine ⟨fun h => ?_, fun h => ?_⟩
  · obtain ⟨n, hn⟩ := jobs_ok h
    exact ⟨n, by rw [hn]; rfl, trivial⟩
  · obtain ⟨v, hv⟩ := not_forall.mp h
    obtain ⟨hget, hv⟩ := Classical.not_imp.mp hv
    obtain ⟨fault, hfault, hmessage⟩ := jobs_error hget hv
    exact ⟨.input fault, by rw [hfault]; rfl, rfl, _, List.mem_singleton.mpr hmessage, rfl⟩

/-! ## 4. The documents -/

/-- The file can be looked up and read, or there is no file.  Whatever a file holds can be read,
unless it comes to an integer of too many digits; and files with half a character that stands alone
are left out. -/
structure Readable (file : File) : Prop where
  name : file ≠ .nameTooLong
  digits : ¬ file.IsOverlong
  whole : ¬ file.HasLoneHalf

theorem readable_of_yields {file : File} {v : Value} (h : file.Yields (.ok v)) :
    Readable file := by
  obtain ⟨hdigits, hwhole⟩ := Document.not_in_the_way h
  refine ⟨fun hname => ?_, hdigits, hwhole⟩
  have hregular := Document.isRegular_of_yields h
  rw [hname] at hregular
  cases hregular

section
variable {α β : Type} {file : File} {entries : Entries} {schema : Schema} {dotted : Bool}

theorem mapError_bind {ε : Type} (x : Except ε α) (f : α → Except ε β) (g : ε → Failure) :
    (x >>= f).mapError g = x.mapError g >>= fun a => (f a).mapError g := by
  cases x <;> rfl

/-- To look for the file and to check its document makes the table of the entries in it. -/
theorem governs_payload (path : String) (hfile : Readable file) :
    Governs ((Document.readPayload path file >>= Document.parse schema dotted).mapError .document)
      (fun table => ∃ entries, Shaped file schema entries ∧
        table = Document.tableEntries dotted entries.sorted)
      [.found path file, .shape schema file] := by
  refine ⟨fun hregular => ⟨fun hshape => ?_, fun hshape => ?_⟩, fun hregular => ?_⟩
  · obtain ⟨entries, hentries⟩ := hshape
    obtain ⟨v, hread, hparse⟩ := hentries.reads.parses dotted path
    exact ⟨_, by rw [hread]; exact congrArg _ hparse, entries, hentries, rfl⟩
  · have hdigits := mt Document.isOverlong_iff.mpr hfile.digits
    have hhalves := mt Document.hasLoneHalf_iff.mpr hfile.whole
    obtain ⟨v, complaints, hread, hparse, htells⟩ :=
      Document.parse_of_not_shaped hregular hdigits hhalves (not_exists.mp hshape) dotted path
    refine ⟨.document (.unfit schema complaints), ?_, rfl, complaints, htells, rfl⟩
    rw [hread]
    exact congrArg _ hparse
  · refine ⟨.document (.notFound path), ?_, rfl, rfl⟩
    cases file with
    | missing => rfl
    | directory => rfl
    | nameTooLong => exact absurd rfl hfile.name
    | regular _ => exact absurd rfl hregular

/-- To make a table checks the names. -/
theorem governs_toTable (h : Shaped file schema entries) {refuse : Fault → Failure}
    (hrefusal : ∀ fault, (refuse fault).isRefusal = true)
    (hmessage : ∀ fault, (refuse fault).message = "Invalid input: " ++ fault.message) :
    Governs ((Document.toTable schema (Document.tableEntries dotted entries.sorted)).mapError
      refuse) (fun _ => True) [.names schema file] := by
  have hmem := Document.mem_sorted h.nodup
  refine ⟨fun hnames => ?_, fun hnames => ?_⟩
  · have hnamed := hnames entries h
    obtain ⟨made, hmade, _⟩ :=
      (Document.represents_tableEntries dotted entries.sorted).toTable schema
        (fun e he => (hnamed e ((hmem e).mp he)).1) (fun e he => (hnamed e ((hmem e).mp he)).2)
    exact ⟨made, by rw [hmade]; rfl, trivial⟩
  · have hrefused : ∃ fault ∈ ["empty type_id", "empty " ++ schema.memberField],
        Document.toTable schema (Document.tableEntries dotted entries.sorted) =
          .error (.rule fault []) := by
      by_cases hkey : "" ∈ entries.sorted.map (·.1)
      · exact ⟨_, by simp, Document.toTable_of_key (Document.ascending_sorted entries) hkey⟩
      · refine ⟨_, by simp, Document.toTable_of_member hkey ?_⟩
        refine Classical.byContradiction fun hmember => hnames fun entries' h' e he => ?_
        cases Document.shaped_unique h h'
        have hsorted := (hmem e).mpr he
        exact ⟨fun heq => hkey (List.mem_map.mpr ⟨e, hsorted, heq⟩),
          fun hin => hmember ⟨e, hsorted, hin⟩⟩
    obtain ⟨fault, hfault, htable⟩ := hrefused
    refine ⟨refuse (.rule fault []), by rw [htable]; rfl, hrefusal _, fault, hfault, ?_⟩
    rw [hmessage, message_rule (by simp)]

theorem governs_loadCoreIndex (path : String) (h : Readable file) :
    Governs ((Document.loadCoreIndex dotted path file).mapError .document) (fun _ => True)
      [.found path file, .shape .coreIndex file, .names .coreIndex file] := by
  have hsplit : Document.loadCoreIndex dotted path file =
      Document.readPayload path file >>= Document.parse .coreIndex dotted >>= fun entries =>
        (Document.toTable .coreIndex entries).mapError .refused := (bind_assoc _ _ _).symm
  rw [hsplit, mapError_bind]
  refine (governs_payload path h).bind ?_
  rintro _ ⟨entries, hentries, rfl⟩
  have hrefuse : ∀ x : Except Fault TypeTable, (x.mapError Document.LoadError.refused).mapError
      Failure.document = x.mapError fun fault => .document (.refused fault) := by
    intro x
    cases x <;> rfl
  rw [hrefuse]
  exact governs_toTable hentries (fun _ => rfl) fun _ => rfl

end

/-! ## 5. The commands -/

section
variable {request : Request} {files : String → File} {config settings : Settings}

/-- The documents of the request can be looked up and read. -/
def Request.ReadableFiles (request : Request) (files : String → File) : Prop :=
  ∀ path ∈ request.documents, Readable (files path)

theorem governs_loadCore (h : request.ReadableFiles files) (dotted : Bool) :
    Governs ((request.loadCore dotted files).mapError .document) (fun _ => True)
      (request.core.elim [] fun path =>
        [.found path (files path), .shape .coreIndex (files path),
          .names .coreIndex (files path)]) := by
  unfold Request.loadCore
  cases hcore : request.core with
  | none => exact ⟨.empty, rfl, trivial⟩
  | some path =>
    refine governs_loadCoreIndex path (h path ?_)
    rw [Request.documents, hcore]
    exact List.mem_cons_of_mem _ (List.mem_singleton_self _)

/-- **The checks govern whether there is a hierarchy.** -/
theorem governs_hierarchy (h : request.ReadableFiles files)
    (hstem : settings.get? "core_prefix" =
      (request.corePrefix.map .text).or (config.get? "core_prefix")) :
    Governs (request.hierarchy arrangement settings files) (fun _ => True)
      (request.checks config files) := by
  have hspace := governs_coreNamespace settings
  rw [hstem] at hspace
  have hdeclared := h request.supertypes List.mem_cons_self
  rw [Request.checks, List.append_assoc]
  refine hspace.bind fun space _ => ?_
  refine (governs_payload request.supertypes hdeclared).bind ?_
  rintro _ ⟨entries, hentries, rfl⟩
  refine (governs_loadCore h _).bind fun core _ => ?_
  refine (governs_toTable hentries (fun _ => rfl) fun _ => rfl).next ?_
  exact fun index _ => ⟨_, rfl, trivial⟩

theorem governs_ancestors (request : AncestorsRequest)
    (h : request.toRequest.ReadableFiles files)
    (hconfig : Settings.load (files (request.config.getD Settings.standardFile)) = .ok config) :
    Governs (request.answer arrangement files) (·.exitCode = 0)
      (request.toRequest.checks config files ++
        [.jobs ((request.jobs.map fun n => .int n).or (config.get? "jobs"))]) := by
  obtain ⟨hstem, hjobs, _⟩ :=
    get?_merge_given request.corePrefix request.jobs request.dotted config
  have hsettings : request.settings request.jobs request.dotted files =
      .ok (.merge (givenSettings request.corePrefix request.jobs request.dotted) config) := by
    rw [Request.settings, hconfig]
    rfl
  have hworkers := governs_jobs (.merge (givenSettings request.corePrefix request.jobs
    request.dotted) config)
  rw [hjobs] at hworkers
  rw [AncestorsRequest.answer, hsettings]
  refine (governs_hierarchy h hstem).bind fun hierarchy _ => ?_
  refine hworkers.next fun _ _ => ?_
  refine ⟨_, rfl, ?_⟩
  split <;> rfl

theorem governs_status (h : request.ReadableFiles files)
    (hconfig : Settings.load (files (request.config.getD Settings.standardFile)) = .ok config) :
    Governs (request.status arrangement files) (·.exitCode = 0) (request.checks config files) := by
  obtain ⟨hstem, _⟩ := get?_merge_given request.corePrefix none none config
  have hsettings : request.settings none none files =
      .ok (.merge (givenSettings request.corePrefix none none) config) := by
    rw [Request.settings, hconfig]
    rfl
  rw [Request.status, hsettings]
  refine (governs_hierarchy h hstem).next fun hierarchy _ => ?_
  refine ⟨_, rfl, ?_⟩
  split <;> rfl

/-- A run heeds its configuration file if the checks govern its answer where the file is loaded, and
the run fails for the file where it is not. -/
theorem heeds_of_governs {args : List String} {invocation : Invocation} {file : File}
    {checks : Settings → List Check} (hread : Invocation.read args = .ok invocation)
    (hloaded : ∀ config, Settings.load file = .ok config →
      Governs (invocation.answer arrangement files) (·.exitCode = 0) (checks config))
    (hfails : ∀ e, Settings.load file = .error e →
      invocation.answer arrangement files = .error (.settings e)) :
    (run arrangement args files).Heeds file checks := by
  refine ⟨fun config hsets => ?_, fun hbad => ?_⟩
  · exact (hloaded config (Settings.load_eq_ok_iff.mpr hsets)).follows hread
  · have hload : ∃ e, Settings.load file = .error e :=
      hbad.elim (fun h => ⟨_, Settings.load_eq_notUnicode_iff.mpr h⟩)
        fun h => ⟨_, Settings.load_eq_hugeInteger_iff.mpr h⟩
    obtain ⟨e, hload⟩ := hload
    simp only [run, hread, hfails e hload]
    exact ⟨rfl, rfl⟩

/-- **Which input is refused, and on what grounds.**  Whatever the command line asks for, and
whatever stands at the paths that it names, both commands succeed if all checks hold; else they fail
with an empty output and tell of the first that does not.  The checks are the same for both and come
in the same order, but only `ancestors` looks at the number of workers, at the end.  A configuration
file that cannot be loaded breaks both off before any check is made.

Of documents with an integer of too many digits or half a character that stands alone nothing is
said here, nor of names too long to be looked up. -/
theorem run_follows (request : Request) (files : String → File) (arrangement : Arrangement)
    (hfiles : request.ReadableFiles files) :
    (∀ args types jobs dotted verbose,
      Invocation.read args = .ok (.ancestors ⟨request, types, jobs, dotted, verbose⟩) →
      (run arrangement args files).Heeds (files (request.config.getD Settings.standardFile))
        fun config => request.checks config files ++
          [.jobs ((jobs.map fun n => .int n).or (config.get? "jobs"))]) ∧
    ∀ args, Invocation.read args = .ok (.status request) →
      (run arrangement args files).Heeds (files (request.config.getD Settings.standardFile))
        fun config => request.checks config files := by
  have hsettings : ∀ jobs dotted e,
      Settings.load (files (request.config.getD Settings.standardFile)) = .error e →
        request.settings jobs dotted files = .error (.settings e) := by
    intro jobs dotted e hload
    rw [Request.settings, hload]
    rfl
  constructor
  · intro args types jobs dotted verbose hread
    refine heeds_of_governs hread (fun config hconfig => ?_) fun e hload => ?_
    · exact governs_ancestors ⟨request, types, jobs, dotted, verbose⟩ hfiles hconfig
    · simp only [Invocation.answer, AncestorsRequest.answer, hsettings _ _ e hload, bind,
        Except.bind]
  · intro args hread
    refine heeds_of_governs hread (fun config hconfig => governs_status hfiles hconfig)
      fun e hload => ?_
    simp only [Invocation.answer, Request.status, hsettings _ _ e hload, bind, Except.bind]

end

/-- Where there is no configuration file, nothing is set. -/
theorem sets_missing : File.missing.Sets .empty := Settings.load_eq_ok_iff.mp rfl

/-- The document of the core system differs from the shape in one place, and the other document has
an empty name, which is not told. -/
theorem run_follows_shape :
    let args := ["ancestors", "t", "--supertypes", "s", "--core", "c"]
    let files : String → File := fun path =>
      if path = "s" then .regular "\x7b\"direct_supertypes\": \x7b\"\": []\x7d\x7d".toUTF8
      else if path = "c" then .regular "\x7b\"ancestors\": \x7b\"a\": 1\x7d\x7d".toUTF8
      else .missing
    let output := run .ascending args files
    output.exitCode = 2 ∧ output.out = "" ∧
      output.err = "Invalid hierarchy payload: 1 validation error for CoreIndexPayloadDTO\n" := by
  intro args files output
  let request : Request := ⟨"s", some "c", none, none, false⟩
  let ancestors : List (Value × Value) := [(.text "a", .int 1)]
  let complaint : Document.Complaint := ⟨.notArray, [.name "ancestors", .name "a"]⟩
  have hread : Invocation.read args = .ok (.ancestors ⟨request, ["t"], none, none, false⟩) := by
    decide +kernel
  have hdeclared : Shaped (files "s") .supertypes [("", [])] :=
    Document.shaped_of_read [(.text "direct_supertypes", Entries.toValue [("", [])])]
      (by cbv) (by cbv)
  have hcore : File.Yields (files "c") (.ok (.map [(.text "ancestors", .map ancestors)])) :=
    Document.yields_of_read (by cbv)
  have hfiles : request.ReadableFiles files := by
    intro path hpath
    rcases List.mem_cons.mp hpath with rfl | hpath
    · obtain ⟨_, hyields, _⟩ := Document.shaped_iff.mp hdeclared
      exact readable_of_yields hyields
    · cases List.mem_singleton.mp hpath
      exact readable_of_yields hcore
  have hstem : (Check.corePrefix none).holds := fun v hv => by cases hv
  have hbefore : ∀ b ∈ [.corePrefix none, .found "s" (files "s"),
      .shape .supertypes (files "s"), .found "c" (files "c")], Check.holds b := by
    simp only [List.forall_mem_cons]
    exact ⟨hstem, rfl, ⟨_, hdeclared⟩, rfl, by simp⟩
  have hshape : ∀ entries, ¬ Shaped (files "c") .coreIndex entries := fun entries h => by
    obtain ⟨_, hyields, hfield⟩ := Document.shaped_iff.mp h
    cases Document.yields_unique hcore hyields
    have hentry : (.text "a", .int 1) ∈ ancestors := List.mem_singleton_self _
    have hancestors : Value.find? [(.text "ancestors", .map ancestors)] Schema.coreIndex.field =
      some (.map ancestors) := rfl
    exact Document.not_offends hfield _ (.notArray hancestors hentry (by simp))
  have htold : Tells (files "c") .coreIndex [complaint] := by
    have hdigits := mt Document.isOverlong_iff.mpr (Document.not_in_the_way hcore).1
    have hhalves := mt Document.hasLoneHalf_iff.mpr (Document.not_in_the_way hcore).2
    have hload : Document.loadCoreIndex false "c" (files "c") =
        .error (.unfit .coreIndex [complaint]) := by
      rw [Document.loadCoreIndex, Document.readPayload_eq rfl (Document.readObject_of_yields hcore)]
      cbv
    obtain ⟨_, hfound, htells⟩ :=
      (Document.loadCoreIndex_outcome rfl hdigits hhalves false "c").complains hshape
    cases hload.symm.trans hfound
    exact htells
  obtain ⟨hcode, hout, _, ⟨complaints, htells, rfl⟩, herr⟩ :=
    (((run_follows request files .ascending hfiles).1 args ["t"] none none false hread).follows
      .empty sets_missing).refused _ (.shape .coreIndex (files "c"))
      [.names .coreIndex (files "c"), .names .supertypes (files "s"), .jobs none] rfl hbefore
      fun h => hshape _ h.choose_spec
  cases Document.tells_unique htold htells
  exact ⟨hcode, hout, herr.trans (by decide +kernel)⟩

/-- A configuration file of a byte that begins no character breaks a run off of which all checks
hold, as they do for a file that sets nothing. -/
theorem run_garbled_config :
    let args := ["ancestors", "t", "--supertypes", "s", "--config", "c"]
    let request : Request := ⟨"s", none, some "c", none, false⟩
    let files : String → File := fun path =>
      if path = "s" then .regular "\x7b\"direct_supertypes\": \x7b\x7d\x7d".toUTF8
      else if path = "c" then .regular ⟨#[0xFF]⟩
      else .missing
    Invocation.read args = .ok (.ancestors ⟨request, ["t"], none, none, false⟩) ∧
      request.ReadableFiles files ∧ (∀ entries, ¬ (files "c").HoldsTable entries) ∧
      (∀ c ∈ request.checks .empty files ++ [.jobs none], c.holds) ∧
      (run .ascending args files).exitCode = 1 := by
  intro args request files
  have hread : Invocation.read args = .ok (.ancestors ⟨request, ["t"], none, none, false⟩) := by
    decide +kernel
  have hdeclared : Shaped (files "s") .supertypes [] :=
    Document.shaped_of_read [(.text "direct_supertypes", .map [])] (by cbv) (by cbv)
  have hgarbled : (files "c").IsGarbled := by
    refine ⟨⟨#[0xFF]⟩, rfl, fun text heq => ?_⟩
    have hbytes : String.fromUTF8? ⟨#[0xFF]⟩ = none := by decide
    rw [heq, Text.fromUTF8?_toUTF8] at hbytes
    cases hbytes
  refine ⟨hread, fun path hpath => ?_, fun entries hholds => ?_, ?_, ?_⟩
  · cases List.mem_singleton.mp hpath
    obtain ⟨_, hyields, _⟩ := Document.shaped_iff.mp hdeclared
    exact readable_of_yields hyields
  · cases (Settings.loadTable_garbled hgarbled).symm.trans (Settings.loadTable_holdsTable hholds)
  · have hnamed : ∀ entries, Shaped (files "s") .supertypes entries → entries.Named := by
      intro entries h
      cases Document.shaped_unique hdeclared h
      exact fun e he => absurd he List.not_mem_nil
    have hunset : ∀ {P : Value → Prop} v, (none : Option Value) = some v → P v := fun v hv => by
      cases hv
    simp only [List.forall_mem_append, Request.checks, List.forall_mem_cons, request, Option.elim]
    exact ⟨⟨⟨⟨hunset, rfl, ⟨[], hdeclared⟩, by simp⟩, by simp⟩, hnamed, by simp⟩, hunset, by simp⟩
  · have hload : Settings.load (files "c") = .error .notUnicode :=
      Settings.load_eq_notUnicode_iff.mpr hgarbled
    have hanswer : (Invocation.ancestors ⟨request, ["t"], none, none, false⟩).answer .ascending
        files = .error (.settings .notUnicode) := by
      rw [Invocation.answer, AncestorsRequest.answer, Request.settings]
      exact congrArg (fun x => Except.mapError Failure.settings x >>= _) hload
    simp only [run, hread, hanswer]
    rfl

end Ancestry.Command
