import Mathlib
import Ancestry.Proofs.Command.Rearranged
import Ancestry.Proofs.Command.Settings
import Ancestry.Proofs.Command.Sources
import Ancestry.Proofs.Crew.History
import Ancestry.Proofs.Json.ReadBack

/-!
# What `ancestors` answers

From the command line and the files to what is printed.  The stages are taken one by one: the
settings and the documents make a hierarchy, the hierarchy answers a batch, the answers make a
report, and the report is written.  What is printed is right by the documents themselves
(`Answer.Right`), and it is what any number of workers come to that share the queries
(`Answer.Shared`).  In whatever order supertypes are taken, the answer is one and the same.

Every theorem here is about documents in which no half of a character stands alone
(`Request.WholeDocuments`).
-/

namespace Ancestry.Command

open Closure
open Document (Entries Holds)

/-! ## 1. Right answers -/

/-- What is told of some types: the ancestors of each, the types of which nothing is known, and the
counters of the memo. -/
structure Answer where
  results : Entries
  unknown : List TypeName
  hits : Nat
  misses : Nat
  stores : Nat
  size : Nat

namespace Answer

/-- The object that is printed. -/
def toValue (answer : Answer) (space : CoreNamespace) : Value :=
  object
    [("core_prefix", .text space.stem), ("results", answer.results.toValue),
      ("stats", object
        [("hits", .int answer.hits), ("misses", .int answer.misses), ("size", .int answer.size),
          ("stores", .int answer.stores)]),
      ("unknown_core_types", namesValue answer.unknown)]

/-- The answer about the types `asked` is what the sources say. -/
structure Right (answer : Answer) (S : Sources) (asked : List TypeName) : Prop where
  keys_ascending : Ascending (answer.results.map (·.1))
  mem_keys : ∀ t, t ∈ answer.results.map (·.1) ↔ t ∈ asked
  names_ascending : ∀ e ∈ answer.results, Ascending e.2
  mem_names : ∀ e ∈ answer.results, ∀ x, x ∈ e.2 ↔ S.Ancestor e.1 x
  unknown_ascending : Ascending answer.unknown
  mem_unknown : ∀ t, t ∈ answer.unknown ↔ S.Unknown t ∧ S.Reached asked t
  counters : ∃ reached : List TypeName, reached.Nodup ∧ (∀ t, t ∈ reached ↔ S.Reached asked t) ∧
    answer.size = reached.length ∧ answer.misses = reached.length ∧ answer.stores = reached.length

/-- The answer is what the workers of a crew come to that is done, where `heard` is what a listener
has heard of meanwhile. -/
structure MadeBy (answer : Answer) (crew : Crew) (heard : List TypeName) : Prop where
  results : ∀ worker ∈ crew.workers, ∀ e ∈ worker.answered, (e.1, e.2.toList) ∈ answer.results
  unknown : ∀ t, t ∈ answer.unknown ↔ t ∈ heard
  size : answer.size = crew.memo.size

/-- Workers who share out the types `asked` get done, however many there are, and come to the
answer in whatever order they make their moves. -/
structure Shared (answer : Answer) (hierarchy : Hierarchy) (asked : List TypeName) : Prop where
  ends : ∀ plans : List (List TypeName), (∀ t, t ∈ plans.flatten ↔ t ∈ asked) → ∃ crew heard,
    Crew.History hierarchy.layer hierarchy.core.getD plans crew heard ∧ crew.Done
  madeBy : ∀ plans : List (List TypeName), (∀ t, t ∈ plans.flatten ↔ t ∈ asked) →
    ∀ crew heard, Crew.History hierarchy.layer hierarchy.core.getD plans crew heard →
      crew.Done → answer.MadeBy crew heard

/-- The counters can be read back. -/
def Readable (answer : Answer) : Prop :=
  ∀ n ∈ [answer.hits, answer.misses, answer.stores, answer.size],
    (Nat.toDigits 10 n).length ≤ Text.maxDigits

end Answer

/-! ## 2. The report -/

variable {hierarchy : Hierarchy} {S : Sources} {asked : List TypeName}

/-- The report is what the layer of the hierarchy answers about the types `asked`, where `reached`
are the types in its memo. -/
structure AncestorsReport.Of (report : AncestorsReport) (hierarchy : Hierarchy)
    (asked reached : List TypeName) : Prop where
  space : report.space = hierarchy.layer.space
  keys : report.results.map (·.1) = distinct asked
  answers : ∀ e ∈ report.results, ∃ set : TypeSet, e.2 = set.toList ∧
    (Question.ancestors e.1).Answers hierarchy.layer hierarchy.core.getD (fun _ => none) set
  memo : report.memo.Sound (hierarchy.layer.hierarchy hierarchy.core.getD)
  nodup : reached.Nodup
  mem_reached : ∀ t, t ∈ reached ↔ ∃ u ∈ asked,
    ¬ hierarchy.layer.AnswersAtOnce hierarchy.core.getD u ∧
      (hierarchy.layer.hierarchy hierarchy.core.getD).Reaches u t
  has : ∀ t, report.memo.Has t ↔ t ∈ reached
  size : report.memo.size = reached.length
  misses : report.memo.misses = reached.length
  stores : report.memo.stores = reached.length
  unknown_ascending : Ascending report.unknown
  mem_unknown : ∀ t, t ∈ report.unknown ↔
    t ∈ reached ∧ hierarchy.layer.unknown hierarchy.core.getD t = true

/-- **The report of a hierarchy.** -/
theorem report_of (hierarchy : Hierarchy) (asked : List TypeName) :
    ∃ reached, (hierarchy.report asked).1.Of hierarchy asked reached := by
  let core : Registry := .table hierarchy.core
  let fresh : World core.State Watch := ⟨.empty, (), { hooks := [] }⟩
  let world := hierarchy.layer.after core.toCore ((distinct asked).map .ancestors) fresh
  have hanswers : core.Answers hierarchy.core.getD := fun _ => rfl
  have hsound : fresh.Sound hierarchy.layer hierarchy.core.getD core.Sound :=
    ⟨Memo.sound_empty, trivial⟩
  have hpatient : fresh.Patient core.Patient :=
    ⟨⟨rfl, fun _ he => absurd he List.not_mem_nil⟩, trivial⟩
  have hstate : core.Sound fresh.core ∧ core.Patient fresh.core := ⟨trivial, trivial⟩
  have hnames : ∀ t ∈ asked, t ∈ distinct asked := fun t ht => mem_distinct.mpr ht
  obtain ⟨results, hquery, hkeys, hright⟩ := queryAllIn_eq hanswers hsound hpatient hnames
  obtain ⟨reached, heard, htallied⟩ :
      ∃ reached heard, world.Tallied hierarchy.layer hierarchy.core.getD (distinct asked) reached
        heard := exists_tallied hierarchy.layer hstate (distinct asked)
  have hmemo : world.memo.Sound (hierarchy.layer.hierarchy hierarchy.core.getD) :=
    (after_sound hanswers ((distinct asked).map .ancestors) hsound).memo
  have hreport : (hierarchy.report asked).1 =
      ⟨hierarchy.layer.space, results, world.memo, unknownTypes world.listener.log⟩ :=
    congrArg (fun p : Except Event (List (TypeName × List TypeName)) × World core.State Watch =>
      (⟨hierarchy.layer.space, p.1.toOption.getD [], p.2.memo, unknownTypes p.2.listener.log⟩ :
        AncestorsReport)) hquery
  rw [hreport, htallied.listener]
  refine ⟨reached, rfl, hkeys, hright, hmemo, htallied.nodup, fun t => ?_, htallied.has,
    htallied.size, htallied.misses, htallied.stores, TypeSet.ascending_toList _, fun t => ?_⟩
  · rw [htallied.reached_iff]
    exact exists_congr fun u => and_congr_left fun _ => mem_distinct
  · rw [mem_unknownTypes, htallied.unknown.mem_iff, List.mem_filter]

variable {report : AncestorsReport} {reached : List TypeName}

/-- What is told by a report: its results in ascending order, and the rest as it is. -/
def AncestorsReport.told (report : AncestorsReport) : Answer where
  results := Entries.sorted report.results
  unknown := report.unknown
  hits := report.memo.hits
  misses := report.memo.misses
  stores := report.memo.stores
  size := report.memo.size

theorem AncestorsReport.Of.nodup_keys (h : report.Of hierarchy asked reached) :
    (report.results.map (·.1)).Nodup := by
  rw [h.keys]
  exact nodup_distinct asked

/-- **What is told is right**, if the hierarchy is what the sources describe. -/
theorem AncestorsReport.Of.right (h : report.Of hierarchy asked reached)
    (hS : hierarchy.Describes S) : report.told.Right S asked := by
  have hmem := Document.mem_sorted h.nodup_keys
  have hreached : ∀ t, t ∈ reached ↔ S.Reached asked t :=
    fun t => (h.mem_reached t).trans (hS.reached_iff asked)
  refine ⟨Document.ascending_sorted _, fun t => ?_, fun e he => ?_, fun e he x => ?_,
    h.unknown_ascending, fun t => ?_, reached, h.nodup, hreached, h.size, h.misses, h.stores⟩
  · have hkeys : t ∈ (Entries.sorted report.results).map (·.1) ↔ t ∈ report.results.map (·.1) := by
      simp only [List.mem_map, hmem]
    rw [h.keys, mem_distinct] at hkeys
    exact hkeys
  · obtain ⟨set, hset, _⟩ := h.answers e ((hmem e).mp he)
    rw [hset]
    exact set.ascending_toList
  · obtain ⟨set, hset, hanswers⟩ := h.answers e ((hmem e).mp he)
    rw [hset, Std.ExtTreeSet.mem_toList, hS.answers_iff hanswers]
  · rw [← hreached, ← hS.unknown_iff, and_comm]
    exact h.mem_unknown t

/-- Memos that have the same types and are both right are of one size. -/
theorem size_eq {H : Closure.Hierarchy} {memo memo' : Memo} (h : memo.Sound H) (h' : memo'.Sound H)
    (hhas : ∀ t, memo'.Has t ↔ memo.Has t) : memo.size = memo'.size := by
  rw [Memo.size, ← h.entries_eq h' hhas, Memo.size]

/-- **What is told is what any crew comes to** whose workers share out the types. -/
theorem AncestorsReport.Of.madeBy (h : report.Of hierarchy asked reached)
    {plans : List (List TypeName)} {crew : Crew} {heard : List TypeName}
    (hplans : ∀ t, t ∈ plans.flatten ↔ t ∈ asked)
    (hhistory : Crew.History hierarchy.layer hierarchy.core.getD plans crew heard)
    (hdone : crew.Done) : report.told.MadeBy crew heard := by
  obtain ⟨hmemo, hhas, hheard, hasked, hanswers⟩ := history_ends hhistory hdone
  have hsame : ∀ t, crew.memo.Has t ↔ report.memo.Has t := by
    intro t
    rw [h.has, h.mem_reached, hhas]
    constructor
    · rintro ⟨plan, hplan, u, hu, hreach⟩
      exact ⟨u, (hplans u).mp (List.mem_flatten.mpr ⟨plan, hplan, hu⟩), hreach⟩
    · rintro ⟨u, hu, hreach⟩
      obtain ⟨plan, hplan, hu⟩ := List.mem_flatten.mp ((hplans u).mpr hu)
      exact ⟨plan, hplan, u, hu, hreach⟩
  refine ⟨fun worker hw e he => ?_, fun t => ?_, size_eq h.memo hmemo hsame⟩
  · have hplan : worker.answered.reverse.map (·.1) ∈ plans := by
      rw [← hasked]
      exact List.mem_map_of_mem hw
    have ht : e.1 ∈ report.results.map (·.1) := by
      rw [h.keys, mem_distinct, ← hplans]
      exact List.mem_flatten.mpr ⟨_, hplan, List.mem_map.mpr ⟨e, List.mem_reverse.mpr he, rfl⟩⟩
    obtain ⟨⟨t, names⟩, hmem, rfl⟩ := List.mem_map.mp ht
    obtain ⟨set, rfl, hset⟩ := h.answers _ hmem
    rw [(hanswers worker hw e he).unique hset]
    exact (Document.mem_sorted h.nodup_keys _).mpr hmem
  · rw [hheard, hsame, h.has]
    exact h.mem_unknown t

/-- Every crew gets done. -/
theorem AncestorsReport.Of.shared (h : report.Of hierarchy asked reached) :
    report.told.Shared hierarchy asked := by
  refine ⟨fun plans _ => ?_, fun plans hplans crew heard hhistory hdone =>
    h.madeBy hplans hhistory hdone⟩
  have hcore : (Registry.table hierarchy.core).Answers hierarchy.core.getD := fun _ => rfl
  obtain ⟨_, _, hspans⟩ := hcore.spans hierarchy.layer
  obtain ⟨names, hnames⟩ : ∃ names,
      CoversPlans hierarchy.layer hierarchy.core.getD names plans :=
    exists_coversPlans fun plan _ t _ => hspans.finite t
  exact exists_history hnames

/-! ## 3. What is printed -/

open Json (Tree IsScalar IsPlain)

/-- The fields of the answer, and those of its counters, have to be sorted to be written. -/
theorem ascending_answerFields :
    Ascending ["core_prefix", "results", "stats", "unknown_core_types"] := by
  unfold Ascending
  decide +kernel

theorem ascending_statFields : Ascending ["hits", "misses", "size", "stores"] := by
  unfold Ascending
  decide +kernel

theorem nodup_statFields : ["hits", "misses", "stores", "size"].Nodup := by decide

/-- An object with sorted fields is written with these. -/
theorem canonical_object {fields fields' : List (String × Value)}
    (hkeys : (fields.map (·.1)).Nodup) (hascending : Ascending (fields'.map (·.1)))
    (hmem : ∀ e, e ∈ fields' ↔ e ∈ fields.map fun e => (e.1, Json.canonical e.2)) :
    Json.canonical (object fields) = object fields' := by
  have hobject : ∀ es, object es = .map (Json.textEntries es) := fun _ => rfl
  rw [hobject, Json.canonical_map, Json.sortEntries_eq ((Json.keys_canonical fields).symm ▸ hkeys)
    hascending hmem, hobject]

theorem canonical_namesValue (names : List TypeName) :
    Json.canonical (namesValue names) = namesValue names := by
  rw [namesValue, Json.canonical, Document.canonical_texts]

/-- The canonical value of a report is what is told by it. -/
theorem AncestorsReport.Of.canonical_toValue (h : report.Of hierarchy asked reached) :
    Json.canonical report.toValue = report.told.toValue report.space := by
  have hvalue : report.toValue = object
      [("core_prefix", .text report.space.stem), ("results", Entries.toValue report.results),
        ("stats", report.stats), ("unknown_core_types", namesValue report.unknown)] := rfl
  have hstats : Json.canonical report.stats = object
      [("hits", .int report.memo.hits), ("misses", .int report.memo.misses),
        ("size", .int report.memo.size), ("stores", .int report.memo.stores)] := by
    refine canonical_object nodup_statFields ascending_statFields fun e => ?_
    simp only [List.map_cons, List.map_nil, Json.canonical, List.mem_cons, List.not_mem_nil,
      or_false]
    tauto
  rw [hvalue]
  refine canonical_object ascending_answerFields.nodup ascending_answerFields fun e => ?_
  simp only [List.map_cons, List.map_nil, Document.canonical_toValue h.nodup_keys, hstats,
    canonical_namesValue]
  rfl

section
variable {leaf : Value → Prop}

theorem tree_namesValue (htext : ∀ s, leaf (.text s)) (names : List TypeName) :
    Tree leaf (namesValue names) := by
  refine .list fun x hx => ?_
  obtain ⟨s, _, rfl⟩ := List.mem_map.mp hx
  exact .leaf (htext s)

/-- An answer is printed as a tree of texts and integers. -/
theorem Answer.tree_toValue {answer : Answer} (htext : ∀ s, leaf (.text s))
    (hint : ∀ n ∈ [answer.hits, answer.misses, answer.stores, answer.size], leaf (.int n))
    (hkeys : (answer.results.map (·.1)).Nodup) (space : CoreNamespace) :
    Tree leaf (answer.toValue space) := by
  have hobject : ∀ fields : List (String × Value), (fields.map (·.1)).Nodup →
      (∀ e ∈ fields, Tree leaf e.2) → Tree leaf (object fields) := fun _ h h' => .map h h'
  have hresults : Tree leaf answer.results.toValue := by
    refine .map ((Document.map_fst_entryValue _).symm ▸ hkeys) fun e he => ?_
    obtain ⟨⟨t, names⟩, _, rfl⟩ := List.mem_map.mp he
    exact tree_namesValue htext names
  simp only [List.forall_mem_cons] at hint
  obtain ⟨hhits, hmisses, hstores, hsize, _⟩ := hint
  refine hobject _ ascending_answerFields.nodup ?_
  simp only [List.forall_mem_cons]
  refine ⟨.leaf (htext _), hresults, hobject _ ascending_statFields.nodup ?_,
    tree_namesValue htext _, by simp⟩
  simp only [List.forall_mem_cons]
  exact ⟨.leaf hhits, .leaf hmisses, .leaf hsize, .leaf hstores, by simp⟩

end

/-- **What is printed is one document**, and what is told is read back from it. -/
theorem AncestorsReport.Of.writeDocument (h : report.Of hierarchy asked reached) :
    ∃ text, Json.write (report.told.toValue report.space) = .ok text ∧
      writeDocument report.toValue = text ++ "\n" ∧ (report.told.Readable →
        Json.read (text ++ "\n") = .ok (report.told.toValue report.space)) := by
  have hkeys : (report.told.results.map (·.1)).Nodup := (Document.ascending_sorted _).nodup
  have htree : ∀ leaf : Value → Prop, (∀ s, leaf (.text s)) →
      (∀ n ∈ [report.told.hits, report.told.misses, report.told.stores, report.told.size],
        leaf (.int n)) → Tree leaf (report.told.toValue report.space) :=
    fun _ htext hint => Answer.tree_toValue htext hint hkeys report.space
  obtain ⟨text, htext⟩ := (htree IsScalar (fun _ => trivial) fun _ _ => trivial).exists_write
  refine ⟨text, htext, ?_, fun hreadable => ?_⟩
  · rw [Command.writeDocument, Json.writeCanonical, h.canonical_toValue, htext]
  · obtain ⟨text', htext', hread⟩ :=
      Json.Plain.read_write (htree IsPlain (fun _ => trivial) hreadable)
    cases htext.symm.trans htext'
    exact hread ['\n'] (by simp [Json.Blank, Json.isSpace])

/-! ## 4. The run -/

/-- The settings and the documents of the request are accepted, and are what the sources say.  The
document with the ancestors of the core types may be left out.  In neither of them half a character
stands alone. -/
structure AncestorsRequest.Accepted (request : AncestorsRequest) (files : String → File)
    (settings : Settings) (S : Sources) : Prop where
  whole : request.WholeDocuments files
  loads : request.settings request.jobs request.dotted files = .ok settings
  space : settings.coreNamespace = .ok S.space
  dotted : settings.dottedNames = S.dotted
  jobs : ∃ n, settings.jobs = .ok n
  declared : Holds (files request.supertypes) .supertypes S.declared
  known_none : request.core = none → S.known = []
  known_some : ∀ path, request.core = some path → Holds (files path) .coreIndex S.known

variable {request : AncestorsRequest} {files : String → File} {settings : Settings}

theorem describes_empty (dotted : Bool) : TypeTable.empty.Describes dotted [] := by
  refine ⟨fun t => ?_, fun t s => ?_⟩
  · simp [TypeTable.get?, TypeTable.empty, Entries.Declares]
  · simp [TypeTable.getD, TypeTable.get?, TypeTable.empty, Entries.Lists]

theorem AncestorsRequest.Accepted.loadCore (h : request.Accepted files settings S) :
    ∃ core, request.loadCore S.dotted files = .ok core ∧ core.Describes S.dotted S.known := by
  unfold Request.loadCore
  cases hcore : request.core with
  | none =>
    rw [h.known_none hcore]
    exact ⟨.empty, rfl, describes_empty S.dotted⟩
  | some path => exact (h.known_some path hcore).loadCoreIndex S.dotted path

theorem Hierarchy.Describes.rearranged {hierarchy : Hierarchy} (h : hierarchy.Describes S)
    (arrangement : Arrangement) : (hierarchy.rearranged arrangement).Describes S :=
  ⟨h.space, h.index, h.core⟩

/-- **Accepted documents make a hierarchy**, which is what they describe, in any order of
supertypes. -/
theorem AncestorsRequest.Accepted.exists_hierarchy (h : request.Accepted files settings S) :
    ∃ hierarchy : Hierarchy, hierarchy.Describes S ∧ ∀ arrangement,
      request.hierarchy arrangement settings files = .ok (hierarchy.rearranged arrangement) := by
  obtain ⟨table, index, htable, hindex, hdeclared⟩ :=
    h.declared.loadSupertypes S.dotted request.supertypes
  obtain ⟨core, hcore, hknown⟩ := h.loadCore
  refine ⟨⟨⟨S.space, index, .ascending⟩, core⟩, ⟨rfl, hdeclared, hknown⟩, fun arrangement => ?_⟩
  simp only [Request.hierarchy, h.dotted, h.space, htable, hcore, Except.mapError, bind,
    Except.bind, hindex]
  rfl

/-- **`ancestors` answers every accepted request** with the report of the hierarchy. -/
theorem AncestorsRequest.Accepted.exists_answer (h : request.Accepted files settings S)
    (hjson : request.json = true) {hierarchy : Hierarchy} {arrangement : Arrangement}
    (hmade : request.hierarchy arrangement settings files =
      .ok (hierarchy.rearranged arrangement)) :
    ∃ err, request.answer arrangement files = .ok ⟨0,
        writeDocument (hierarchy.report (request.typeNames S.dotted)).1.toValue, err⟩ ∧
      (request.verbose = false → err = "") := by
  obtain ⟨n, hjobs⟩ := h.jobs
  refine ⟨writeLines (if request.verbose then
      eventLines ((hierarchy.rearranged arrangement).report (request.typeNames S.dotted)).2
    else []), ?_, ?_⟩
  · simp only [AncestorsRequest.answer, h.loads, hmade, hjobs, h.dotted, typeNames_eq,
      report_rearranged, Except.mapError, bind, Except.bind, pure, Except.pure, hjson, if_true]
  · intro hverbose
    rw [hverbose]
    rfl

/-- **What `ancestors` prints.**  A command line asks for the ancestors of some types, and the
settings and documents that it names are accepted.  Then the run succeeds and prints one object, in
which every type that is asked about has its ancestors, the unknown types that can be reached are
listed, and the types that can be reached are counted, all as the documents say.  The object is the
same in whatever order supertypes are taken.  However many workers share out the types, and in
whatever order they make their moves, they get done and come to the same. -/
theorem run_ancestors {args : List String} (hread : Invocation.read args = .ok (.ancestors request))
    (hjson : request.json = true) (h : request.Accepted files settings S) :
    ∃ (answer : Answer) (text : String),
      Json.write (answer.toValue S.space) = .ok text ∧
      (answer.Readable → Json.read (text ++ "\n") = .ok (answer.toValue S.space)) ∧
      answer.Right S (request.typeNames S.dotted) ∧
      ∀ arrangement : Arrangement, ∃ (hierarchy : Hierarchy) (err : String),
        request.hierarchy arrangement settings files = .ok hierarchy ∧
        run arrangement args files = ⟨0, text ++ "\n", err⟩ ∧
        (request.verbose = false → err = "") ∧
        answer.Shared hierarchy (request.typeNames S.dotted) := by
  obtain ⟨hierarchy, hdescribes, hmade⟩ := h.exists_hierarchy
  obtain ⟨reached, hreport⟩ := report_of hierarchy (request.typeNames S.dotted)
  obtain ⟨text, htext, hout, hback⟩ := hreport.writeDocument
  have hspace : (hierarchy.report (request.typeNames S.dotted)).1.space = S.space :=
    hreport.space.trans hdescribes.space
  rw [hspace] at htext hback
  refine ⟨_, text, htext, hback, hreport.right hdescribes, fun arrangement => ?_⟩
  obtain ⟨err, hanswer, herr⟩ := h.exists_answer hjson (hmade arrangement)
  refine ⟨_, err, hmade arrangement, ?_, herr, ?_⟩
  · have hinvocation : (Invocation.ancestors request).answer arrangement files =
        request.answer arrangement files := rfl
    simp only [run, hread, hinvocation, hanswer, hout]
  · -- The crew goes by the order at hand, and the report does not.
    obtain ⟨_, hreport'⟩ :=
      report_of (hierarchy.rearranged arrangement) (request.typeNames S.dotted)
    rw [report_rearranged] at hreport'
    exact hreport'.shared

/-- Documents with two entries whose names become the same, of which one lists a type that is
nowhere else. -/
def Sources.united : Sources where
  space := ⟨"g/"⟩
  dotted := true
  declared := [("a.A", ["g.B"]), ("a/A", ["g.U"])]
  known := [("g.B", ["g.C"])]

/-- Both entries count, and the core system knows how to go on from one of their supertypes. -/
theorem Sources.united_reaches :
    united.Reaches "a/A" "g/U" ∧ united.Reaches "a/A" "g/C" := by
  have hAU : united.Leads "a/A" "g/U" :=
    .inl ⟨("a/A", ["g.U"]), by decide, by decide +kernel, "g.U", by decide, by decide +kernel⟩
  have hAB : united.Leads "a/A" "g/B" :=
    .inl ⟨("a.A", ["g.B"]), by decide, by decide +kernel, "g.B", by decide, by decide +kernel⟩
  have hdeclares : ¬ united.declared.Declares united.dotted "g/B" := by
    rintro ⟨e, he, heq⟩
    rcases List.mem_cons.mp he with rfl | he
    · exact absurd heq (by decide +kernel)
    · cases List.mem_singleton.mp he
      exact absurd heq (by decide +kernel)
  have hBC : united.Leads "g/B" "g/C" := .inr ⟨hdeclares, by decide +kernel,
    ("g.B", ["g.C"]), by decide, by decide +kernel, "g.C", by decide, by decide +kernel⟩
  exact ⟨.single hAU, .head hAB (.single hBC)⟩

/-- Core types under other names than those of the entries are unknown. -/
theorem Sources.united_unknown {t : TypeName} (hA : t ≠ "a/A") (hB : t ≠ "g/B")
    (hcore : united.space.contains t = true) : united.Unknown t := by
  refine ⟨hcore, ?_, ?_⟩
  · rintro ⟨e, he, rfl⟩
    rcases List.mem_cons.mp he with rfl | he
    · exact hA (by decide +kernel)
    · cases List.mem_singleton.mp he
      exact hA (by decide +kernel)
  · rintro ⟨x, e, he, rfl, _⟩
    cases List.mem_singleton.mp he
    exact hB (by decide +kernel)

/-- Two entries whose names become the same, of which one has an unknown supertype, and two
workers. -/
theorem run_ancestors_dotted :
    let args := ["ancestors", "a.A", "g.B", "--supertypes", "s", "--core", "c",
      "--core-prefix", " g.", "--dotted", "--json", "--jobs", "2"]
    let files : String → File := fun path =>
      if path = "s" then .regular
        "\x7b\"direct_supertypes\": \x7b\"a.A\": [\"g.B\"], \"a/A\": [\"g.U\"]\x7d\x7d".toUTF8
      else if path = "c" then .regular
        "\x7b\"ancestors\": \x7b\"g.B\": [\"g.C\"]\x7d\x7d".toUTF8
      else .missing
    ∃ (answer : Answer) (text : String),
      (∀ arrangement, run arrangement args files = ⟨0, text ++ "\n", ""⟩) ∧
      Json.write (answer.toValue ⟨"g/"⟩) = .ok text ∧
      (∃ names, ("a/A", names) ∈ answer.results ∧ "g/U" ∈ names ∧ "g/C" ∈ names) ∧
      "g/U" ∈ answer.unknown ∧ "g/C" ∈ answer.unknown := by
  intro args files
  let S := Sources.united
  let request : AncestorsRequest := ⟨⟨"s", some "c", none, some " g.", true⟩, ["a.A", "g.B"],
    some 2, some true, false⟩
  have hread : Invocation.read args = .ok (.ancestors request) := by decide +kernel
  have hdeclared : Holds (files "s") .supertypes S.declared :=
    Document.holds_of_read [(.text "direct_supertypes", S.declared.toValue)] (by cbv) (by cbv)
      (by decide) (by decide)
  have hknown : Holds (files "c") .coreIndex S.known :=
    Document.holds_of_read [(.text "ancestors", S.known.toValue)] (by cbv) (by cbv)
      (by decide) (by decide)
  let settings : Settings := .merge (givenSettings (some " g.") (some 2) (some true)) .empty
  have hspace : settings.coreNamespace = .ok S.space := by
    have htrim : Text.trim " g." = "g." := by decide +kernel
    have hname : internalName "g." = "g/" := by decide +kernel
    have hget : settings.get? "core_prefix" = some (.text " g.") := by cbv
    simp only [Settings.coreNamespace, hget, CoreNamespace.ofValue, htrim, hname]
    rfl
  have haccepted : request.Accepted files settings S := by
    refine ⟨fun path hpath => ?_, rfl, hspace, by decide +kernel, ⟨2, by cbv⟩, hdeclared,
      fun h => ?_, fun path h => ?_⟩
    · rcases List.mem_cons.mp hpath with rfl | hpath
      · exact Document.Shaped.not_hasLoneHalf hdeclared.decodes
      · cases List.mem_singleton.mp hpath
        exact Document.Shaped.not_hasLoneHalf hknown.decodes
    · cases h
    · cases h
      exact hknown
  obtain ⟨answer, text, hwrite, _, hright, hruns⟩ := run_ancestors hread rfl haccepted
  have hrun : ∀ arrangement, run arrangement args files = ⟨0, text ++ "\n", ""⟩ := by
    intro arrangement
    obtain ⟨_, err, _, hrun, herr, _⟩ := hruns arrangement
    rw [hrun, herr rfl]
  have hask : ¬ S.AnswersAtOnce "a/A" := fun h => absurd h.1 (by decide +kernel)
  have hasked : "a/A" ∈ request.typeNames S.dotted := by decide +kernel
  obtain ⟨hU, hC⟩ := Sources.united_reaches
  refine ⟨answer, text, hrun, hwrite, ?_, ?_, ?_⟩
  · obtain ⟨⟨_, names⟩, hmem, rfl⟩ := List.mem_map.mp ((hright.mem_keys _).mpr hasked)
    have hnames := hright.mem_names _ hmem
    exact ⟨names, hmem, (hnames _).mpr (.inr ⟨hask, by decide +kernel, hU⟩),
      (hnames _).mpr (.inr ⟨hask, by decide +kernel, hC⟩)⟩
  · exact (hright.mem_unknown _).mpr
      ⟨Sources.united_unknown (by decide) (by decide) (by decide +kernel), _, hasked, hask, hU⟩
  · exact (hright.mem_unknown _).mpr
      ⟨Sources.united_unknown (by decide) (by decide) (by decide +kernel), _, hasked, hask, hC⟩

end Ancestry.Command
