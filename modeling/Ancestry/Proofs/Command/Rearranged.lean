import Mathlib
import Ancestry.Command.Run
import Ancestry.Proofs.Registry.Rearranged

/-!
# Runs with supertypes in another order

The supertypes of a type have no order, and whoever runs a command takes them in some order or
other.  Of what a run leaves behind only the events are in an order that depends on it, and they are
told only if they are asked for.  Everything else is the same in any order (`run_rearranged`): the
answers, the counters, the types that are unknown and the failures.
-/

namespace Ancestry.Command

open Closure

/-! ## 1. The report -/

theorem mem_unknownTypes (heard : List Event) (t : TypeName) :
    t ∈ unknownTypes (heard.map .event) ↔ t ∈ typesAt .coreUnknown heard := by
  rw [unknownTypes, Std.ExtTreeSet.mem_toList, TypeSet.mem_ofNames, typesAt, List.filterMap_map]
  simp only [List.mem_filterMap, Function.comp_apply]
  refine exists_congr fun e => and_congr_right fun _ => ?_
  obtain ⟨occasion, u⟩ := e
  cases occasion <;> simp

/-- The hierarchy with its supertypes in another order. -/
def Hierarchy.rearranged (hierarchy : Hierarchy) (arrangement : Arrangement) : Hierarchy :=
  { hierarchy with layer := hierarchy.layer.rearranged arrangement }

theorem unknownTypes_congr {heard heard' : List Event} (h : heard'.Perm heard) :
    unknownTypes (heard'.map .event) = unknownTypes (heard.map .event) := by
  refine congrArg Std.ExtTreeSet.toList (Std.ExtTreeSet.ext_mem fun t => ?_)
  rw [← Std.ExtTreeSet.mem_toList, ← Std.ExtTreeSet.mem_toList]
  refine (mem_unknownTypes heard' t).trans (Iff.trans ?_ (mem_unknownTypes heard t).symm)
  exact (h.filterMap _).mem_iff

/-- **The order in which supertypes are taken has no influence on the report**, neither on the
answers nor on the counters nor on the types that are unknown. -/
theorem report_rearranged (hierarchy : Hierarchy) (arrangement : Arrangement)
    (asked : List TypeName) :
    ((hierarchy.rearranged arrangement).report asked).1 = (hierarchy.report asked).1 := by
  let core : Registry := .table hierarchy.core
  let fresh : World core.State Watch := ⟨.empty, (), { hooks := [] }⟩
  have hstate : core.Sound fresh.core ∧ core.Patient fresh.core := ⟨trivial, trivial⟩
  have hfresh : fresh.Alike fresh := ⟨rfl, ⟨[], [], .nil, rfl, rfl⟩, hstate, hstate⟩
  obtain ⟨hresults, hmemo, ⟨heard, heard', hperm, hlog, hlog'⟩, _⟩ :=
    queryAll_rearranged hfresh hierarchy.layer arrangement asked
  have hunknown := unknownTypes_congr hperm
  have hreport : ∀ layer : Layer, (Hierarchy.report ⟨layer, hierarchy.core⟩ asked).1 =
      ⟨layer.space, (layer.queryAll core.toCore asked fresh).1.toOption.getD [],
        (layer.queryAll core.toCore asked fresh).2.memo,
        unknownTypes (layer.queryAll core.toCore asked fresh).2.listener.log⟩ := fun _ => rfl
  refine (hreport (hierarchy.layer.rearranged arrangement)).trans
    (Eq.trans ?_ (hreport hierarchy.layer).symm)
  rw [hresults, hmemo, hlog, hlog', hunknown]
  rfl

/-! ## 2. The run -/

/-- The documents make the same hierarchy in any order, or fail in the same way. -/
theorem hierarchy_rearranged (request : Request) (settings : Settings) (files : String → File)
    (arrangement arrangement' : Arrangement) :
    request.hierarchy arrangement' settings files =
      (·.rearranged arrangement') <$> request.hierarchy arrangement settings files := by
  simp only [Request.hierarchy, map_bind, map_pure]
  rfl

/-- Without the events, the answer is the same in any order. -/
theorem answer_rearranged {request : AncestorsRequest} (hverbose : request.verbose = false)
    (files : String → File) (arrangement arrangement' : Arrangement) :
    request.answer arrangement' files = request.answer arrangement files := by
  simp only [AncestorsRequest.answer, hverbose,
    hierarchy_rearranged request.toRequest _ files arrangement arrangement', map_eq_pure_bind,
    bind_assoc, pure_bind, report_rearranged]
  rfl

/-- The status of the documents is the same in any order. -/
theorem status_rearranged (request : Request) (files : String → File)
    (arrangement arrangement' : Arrangement) :
    request.status arrangement' files = request.status arrangement files := by
  simp only [Request.status, hierarchy_rearranged request _ files arrangement arrangement',
    map_eq_pure_bind, bind_assoc, pure_bind]
  rfl

/-- **A run leaves the same behind in whatever order supertypes are taken**, as long as the events
are not asked for. -/
theorem run_rearranged {args : List String}
    (hverbose : ∀ request, Invocation.read args = .ok (.ancestors request) →
      request.verbose = false)
    (files : String → File) (arrangement arrangement' : Arrangement) :
    run arrangement' args files = run arrangement args files := by
  unfold run
  cases hread : Invocation.read args with
  | error misuse => rfl
  | ok invocation =>
    have hanswer : invocation.answer arrangement' files = invocation.answer arrangement files := by
      cases invocation with
      | help => rfl
      | ancestors request =>
        exact answer_rearranged (hverbose request hread) files arrangement arrangement'
      | status request => exact status_rearranged request files arrangement arrangement'
    simp only [hanswer]

end Ancestry.Command
