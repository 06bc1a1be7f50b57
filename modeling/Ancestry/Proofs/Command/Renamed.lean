import Mathlib
import Ancestry.Proofs.Command.Rearranged
import Ancestry.Proofs.Command.Settings
import Ancestry.Proofs.Command.Sources
import Ancestry.Proofs.Document.Renamed

/-!
# Dotted names

To write names with dots is to rename them and nothing else.  A run with dotted names is the run on
the renamed documents, whether that one takes the names as they are or in dotted form, and down to
what is written when a name is refused (`run_renamed`).

Names are brought to internal form in several places: the keys and the members of both documents,
and the types that are asked about.  The namespace is brought there in any case, so it is the same
for all runs.  The documents have other keys, in another order, but what is made of them is one and
the same hierarchy, or one and the same refusal (`Request.RenamedFiles.hierarchy`).

Each run may take supertypes in an order of its own, as long as no run tells the events.
-/

namespace Ancestry.Command

open Closure (Arrangement)
open Document (Shaped Renames)

variable {request : AncestorsRequest} {files files' : String → File}
  {arrangement arrangement' arrangement'' : Arrangement}

/-- The other files have the same settings as these, and the documents with their names in internal
form.  In no document half a character stands alone. -/
structure Request.RenamedFiles (request : Request) (files files' : String → File) : Prop where
  whole : request.WholeDocuments files
  whole' : request.WholeDocuments files'
  settings : Settings.load (files' (request.config.getD Settings.standardFile)) =
    Settings.load (files (request.config.getD Settings.standardFile))
  declared : ∃ entries entries', Shaped (files request.supertypes) .supertypes entries ∧
    Shaped (files' request.supertypes) .supertypes entries' ∧ Renames entries entries'
  known : ∀ path, request.core = some path → ∃ entries entries',
    Shaped (files path) .coreIndex entries ∧ Shaped (files' path) .coreIndex entries' ∧
      Renames entries entries'

/-- The core document of the renamed files makes the same table. -/
theorem Request.RenamedFiles.loadCore {request : Request} (h : request.RenamedFiles files files')
    (dotted : Bool) : request.loadCore dotted files' = request.loadCore true files := by
  unfold Request.loadCore
  cases hcore : request.core with
  | none => rfl
  | some path =>
    obtain ⟨_, _, hshaped, hshaped', hrenames⟩ := h.known path hcore
    obtain ⟨_, _, hreads, hreads', htable⟩ := hshaped.renames hshaped' hrenames
    simp only [hreads.loadCoreIndex, hreads'.loadCoreIndex, htable]

/-- **The renamed files make the same hierarchy**, or fail in the same way. -/
theorem Request.RenamedFiles.hierarchy {request : Request} (h : request.RenamedFiles files files')
    {settings settings' : Settings} (hspace : settings'.coreNamespace = settings.coreNamespace)
    (hdotted : settings.dottedNames = true) (arrangement : Arrangement) :
    request.hierarchy arrangement settings' files' =
      request.hierarchy arrangement settings files := by
  obtain ⟨_, _, hshaped, hshaped', hrenames⟩ := h.declared
  obtain ⟨_, _, hreads, hreads', htable⟩ := hshaped.renames hshaped' hrenames
  simp only [Request.hierarchy, hspace, hdotted, hreads.loadSupertypes, hreads'.loadSupertypes,
    h.loadCore, Except.mapError, bind, Except.bind, htable]

/-- The answer to a request with dotted names is the one that the renamed files give about the same
types, in whichever form they are taken. -/
theorem Request.RenamedFiles.answer (h : request.toRequest.RenamedFiles files files')
    (hdotted : request.dotted = some true) (dotted : Bool) {types : List String}
    (htypes : types.map (Document.typeName dotted) = request.types.map internalName) :
    { request with types := types, dotted := some dotted : AncestorsRequest }.answer
      arrangement files' = request.answer arrangement files := by
  cases hload : Settings.load (files (request.config.getD Settings.standardFile)) with
  | error e =>
    simp only [AncestorsRequest.answer, Request.settings, h.settings, hload, Except.mapError, bind,
      Except.bind]
  | ok defaults =>
    obtain ⟨hmode, hothers⟩ := settings_dotted request.corePrefix request.jobs true defaults
    obtain ⟨hspace, hjobs⟩ := hothers (some dotted)
    obtain ⟨hmode', _⟩ := settings_dotted request.corePrefix request.jobs dotted defaults
    have hhierarchy := h.hierarchy hspace hmode arrangement
    have hasked := typeNames_eq { request with types := types, dotted := some dotted } dotted
    simp only [AncestorsRequest.typeNames, htypes] at hasked
    simp only [AncestorsRequest.answer, Request.settings, h.settings, hload, hdotted,
      Except.mapError, bind, Except.bind, pure, Except.pure, hhierarchy, hjobs, hmode, hmode',
      hasked, if_true]

/-- Where the events are not told, each of two runs may take supertypes in an order of its own. -/
theorem run_rearranged_of_read {args : List String}
    (hread : Invocation.read args = .ok (.ancestors request))
    (horder : request.verbose = true → arrangement' = arrangement) (files : String → File) :
    run arrangement' args files = run arrangement args files := by
  cases hverbose : request.verbose with
  | true => rw [horder hverbose]
  | false =>
    refine run_rearranged (fun request' hread' => ?_) files arrangement arrangement'
    cases hread.symm.trans hread'
    exact hverbose

/-- **Dotted mode is renaming.**  A command line asks for the ancestors of some types with dotted
names, and the documents that it names have the shape.  On the renamed documents the same request,
and the request that asks about the renamed types without dotted names, leave behind what the run
leaves behind: the same exit code and the same text on both outputs, whether there are answers or a
name is refused.  The order in which a run takes supertypes does not matter, unless it tells the
events. -/
theorem run_renamed {args args' args'' : List String} {types : List String}
    (hread : Invocation.read args = .ok (.ancestors request)) (hdotted : request.dotted = some true)
    (hread' : Invocation.read args' = .ok (.ancestors { request with types := types }))
    (htypes : types.map internalName = request.types.map internalName)
    (hread'' : Invocation.read args'' = .ok (.ancestors
      { request with types := request.types.map internalName, dotted := some false }))
    (hfiles : request.toRequest.RenamedFiles files files')
    (horder : request.verbose = true → arrangement' = arrangement ∧ arrangement'' = arrangement) :
    run arrangement' args' files' = run arrangement args files ∧
      run arrangement'' args'' files' = run arrangement args files := by
  have hsame : ({ request with types := types } : AncestorsRequest) =
      { request with types := types, dotted := some true } := by rw [← hdotted]
  have hinternal : (request.types.map internalName).map (Document.typeName false) =
      request.types.map internalName := List.map_id _
  constructor
  · rw [run_rearranged_of_read hread' (fun hverbose => (horder hverbose).1) files']
    simp only [run, hread, hread', Invocation.answer, hsame, hfiles.answer hdotted true htypes]
  · rw [run_rearranged_of_read hread'' (fun hverbose => (horder hverbose).2) files']
    simp only [run, hread, hread'', Invocation.answer, hfiles.answer hdotted false hinternal]

/-- Two entries that become one, a type that is asked about in both forms, and two orders of
supertypes. -/
theorem run_renamed_united :
    let options := ["--supertypes", "s", "--core", "c", "--core-prefix", "g", "--jobs", "1"]
    let args := "ancestors" :: "a.A" :: "a/A" :: "--dotted" :: options
    let args' := "ancestors" :: "a/A" :: "a.A" :: "--dotted" :: options
    let args'' := "ancestors" :: "a/A" :: "a/A" :: "--internal" :: options
    let files : String → File := fun path =>
      if path = "s" then .regular
        "\x7b\"direct_supertypes\": \x7b\"a.A\": [\"g.B\"], \"a/A\": [\"g.U\"]\x7d\x7d".toUTF8
      else if path = "c" then .regular
        "\x7b\"ancestors\": \x7b\"g.B\": [\"g.C\"]\x7d\x7d".toUTF8
      else .missing
    let renamed : String → File := fun path =>
      if path = "s" then .regular
        "\x7b\"direct_supertypes\": \x7b\"a/A\": [\"g/B\", \"g/U\"]\x7d\x7d".toUTF8
      else if path = "c" then .regular
        "\x7b\"ancestors\": \x7b\"g/B\": [\"g/C\"]\x7d\x7d".toUTF8
      else .missing
    let descending : Arrangement :=
      ⟨fun _ set => set.toList.reverse, fun _ _ => List.reverse_perm _⟩
    run descending args' renamed = run .ascending args files ∧
      run descending args'' renamed = run .ascending args files := by
  intro options args args' args'' files renamed descending
  let declared : Document.Entries := [("a.A", ["g.B"]), ("a/A", ["g.U"])]
  let known : Document.Entries := [("g.B", ["g.C"])]
  let request : AncestorsRequest := ⟨⟨"s", some "c", none, some "g", false⟩, ["a.A", "a/A"],
    some 1, some true, false⟩
  have hread : Invocation.read args = .ok (.ancestors request) := by decide +kernel
  have hread' : Invocation.read args' =
      .ok (.ancestors { request with types := ["a/A", "a.A"] }) := by decide +kernel
  have hread'' : Invocation.read args'' = .ok (.ancestors
      { request with types := request.types.map internalName, dotted := some false }) := by
    decide +kernel
  have hdeclared : Document.Entries.renamed declared = [("a/A", ["g/B", "g/U"])] := by
    decide +kernel
  have hknown : Document.Entries.renamed known = [("g/B", ["g/C"])] := by decide +kernel
  have hsupertypes : Shaped (files "s") .supertypes declared :=
    Document.shaped_of_read [(.text "direct_supertypes", declared.toValue)] (by cbv) (by cbv)
  have hcore : Shaped (files "c") .coreIndex known :=
    Document.shaped_of_read [(.text "ancestors", known.toValue)] (by cbv) (by cbv)
  have hsupertypes' : Shaped (renamed "s") .supertypes [("a/A", ["g/B", "g/U"])] :=
    Document.shaped_of_read [(.text "direct_supertypes",
      Document.Entries.toValue [("a/A", ["g/B", "g/U"])])] (by cbv) (by cbv)
  have hcore' : Shaped (renamed "c") .coreIndex [("g/B", ["g/C"])] :=
    Document.shaped_of_read [(.text "ancestors",
      Document.Entries.toValue [("g/B", ["g/C"])])] (by cbv) (by cbv)
  have hwhole : ∀ {files : String → File} {entries entries' : Document.Entries},
      Shaped (files "s") .supertypes entries → Shaped (files "c") .coreIndex entries' →
        request.WholeDocuments files := by
    intro files entries entries' hs hc path hpath
    rcases List.mem_cons.mp hpath with rfl | hpath
    · exact hs.not_hasLoneHalf
    · cases List.mem_singleton.mp hpath
      exact hc.not_hasLoneHalf
  refine run_renamed hread rfl hread' (by decide +kernel) hread''
    ⟨hwhole hsupertypes hcore, hwhole hsupertypes' hcore', rfl, ?_, fun path hpath => ?_⟩
    fun htells => by cases htells
  · exact ⟨declared, _, hsupertypes, hsupertypes', hdeclared ▸ Document.renames_renamed declared⟩
  · cases hpath
    exact ⟨known, _, hcore, hcore', hknown ▸ Document.renames_renamed known⟩

end Ancestry.Command
