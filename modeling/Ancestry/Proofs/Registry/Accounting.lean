import Ancestry.Proofs.Registry.Sound
import Ancestry.Proofs.Session.Ledger

/-!
# The account of one query

What a query does besides answering: the events that are heard of, the questions that the core
registry is asked, and the counters of the memo.  Where the core registry answers at once or the
memo has the type, that is one event.  Otherwise the query walks, and the types that it opens
account for everything, each once (`query_accounts`).  These are the types that are reached without
passing through a type of the memo, so they do not depend on the order in which supertypes are
taken, and neither does anything else in the account but its order.
-/

namespace Ancestry.Closure

open Scene

/-! ## 1. Accounts -/

/-- The account of a query for the ancestors of `t`, put to a layer whose listener only keeps a log
while the memo and the core registry are in the given states. -/
def Layer.Accounts (layer : Layer) (core : Registry) (state : core.State) (memo : Memo)
    (t : TypeName) (account : Account) : Prop :=
  ∃ state', layer.query core.toCore.recorded (.ancestors t) ⟨memo, (state, []), { hooks := [] }⟩ =
    (.ok account.set, ⟨account.memo, (state', account.asked),
      { hooks := [], log := account.heard.map .event }⟩)

/-- The layer with its supertypes in another order. -/
def Layer.rearranged (layer : Layer) (arrangement : Arrangement) : Layer :=
  { layer with arrangement := arrangement }

/-! ## 2. What a query comes to -/

variable {layer : Layer} {core : Registry} {state : core.State} {memo : Memo} {t : TypeName}

/-- Without hooks, and over a registry whose hooks cut nothing short, answers are settled. -/
theorem Registry.settled (core : Registry) :
    core.toCore.Settled (fun s => core.Sound s ∧ core.Patient s) core.answer :=
  (toCore_faithful core.answers_answer).settled (toCore_steady core.answers_answer)

/-- The account of a query is what is left of the scene in which it ends. -/
theorem exists_accounts (hstate : core.Sound state ∧ core.Patient state) (layer : Layer)
    (memo : Memo) (t : TypeName) :
    ∃ n set final,
      (start (.ancestors t) memo (state, [])).Ends layer core.toCore.recorded n set final ∧
      layer.Accounts core state memo t ⟨set, final.memo, final.asked, final.heard⟩ := by
  obtain ⟨names, hlen, hspans⟩ := core.answers_answer.spans layer
  have hstate' : core.Sound (state, ([] : List TypeName)).1 ∧ core.Patient state := hstate
  have hlen' : names.length ≤ layer.index.extent + core.toCore.recorded.extent := hlen
  obtain ⟨n, set, final, hends, hquery⟩ :=
    query_quiet hspans hlen' core.settled.recorded (.ancestors t) memo hstate' []
  have hasked : final.core.2 = final.asked := by
    simpa using hends.recorded [] rfl
  refine ⟨n, set, final, hends, final.core.1, hquery.trans ?_⟩
  rw [world, List.append_nil, ← hasked]

theorem accounts_at_once (layer : Layer) (hstate : core.Sound state ∧ core.Patient state)
    (hat : layer.AnswersAtOnce core.answer t) :
    layer.Accounts core state memo t ⟨core.answer t, memo, [t], [⟨.coreHit, t⟩]⟩ := by
  obtain ⟨n, set, final, hends, haccount⟩ := exists_accounts hstate layer memo t
  obtain ⟨rfl, hmemo, hasked, hheard⟩ := hends.at_once core.settled.recorded hstate hat
  rwa [hmemo, hasked, hheard] at haccount

theorem accounts_found (layer : Layer) (hstate : core.Sound state ∧ core.Patient state)
    (hat : ¬ layer.AnswersAtOnce core.answer t) {found : TypeSet}
    (hfound : memo.peek? t = some found) :
    layer.Accounts core state memo t
      ⟨found, { memo with hits := memo.hits + 1 }, asksFirst layer t, [⟨.cacheHit, t⟩]⟩ := by
  obtain ⟨n, set, final, hends, haccount⟩ := exists_accounts hstate layer memo t
  obtain ⟨n', state', _, hends⟩ := hends.consults core.settled.recorded hstate hat
  obtain ⟨rfl, hmemo, hasked, hheard⟩ := hends.looked_up hfound
  rwa [hmemo, hasked, hheard] at haccount

theorem accounts_walked (layer : Layer) (hstate : core.Sound state ∧ core.Patient state)
    (hat : ¬ layer.AnswersAtOnce core.answer t) (hnew : memo.peek? t = none) :
    ∃ opened account, opened.Nodup ∧
      (∀ u, u ∈ opened ↔
        (layer.hierarchy core.answer memo.peek?).Reaches t u ∧ memo.peek? u = none) ∧
      layer.Accounts core state memo t account ∧
      account.OfWalk layer core.answer memo (asksFirst layer t) opened := by
  have hcore := core.settled.recorded
  obtain ⟨n, set, final, hends, haccount⟩ := exists_accounts hstate layer memo t
  obtain ⟨n', state', hstate', hends⟩ := hends.consults hcore hstate hat
  obtain ⟨n', hends⟩ := hends.not_found hnew
  have hseeks : (Question.ancestors t).Seeks layer core.answer t := ⟨rfl, hat⟩
  obtain ⟨opened, hnodup, hopened, hwalk⟩ := walk_accounts hcore hstate' hseeks hnew hends
  exact ⟨opened, _, hnodup, hopened, haccount, hwalk⟩

/-! ## 3. The theorem -/

/-- **The account of a query.**  A type for which the core registry answers at once is one event
and one question; a type in the memo is one event, after a question to the core registry if it is a
core type.  Any other type is walked from: the types that it reaches without passing through the
memo account for every event, for every question to the core registry and for the counters of the
memo.  Nothing of this depends on the order in which supertypes are taken. -/
theorem query_accounts (layer : Layer) (core : Registry) {state : core.State}
    (hsound : core.Sound state) (hpatient : core.Patient state) (memo : Memo) (t : TypeName) :
    let H := layer.hierarchy core.answer memo.peek?
    (layer.AnswersAtOnce core.answer t → ∀ arrangement,
      (layer.rearranged arrangement).Accounts core state memo t
        ⟨core.answer t, memo, [t], [⟨.coreHit, t⟩]⟩) ∧
    (¬ layer.AnswersAtOnce core.answer t → ∀ found, memo.peek? t = some found → ∀ arrangement,
      (layer.rearranged arrangement).Accounts core state memo t
        ⟨found, { memo with hits := memo.hits + 1 }, asksFirst layer t, [⟨.cacheHit, t⟩]⟩) ∧
    (¬ layer.AnswersAtOnce core.answer t → memo.peek? t = none →
      ∃ opened : List TypeName, opened.Nodup ∧
        (∀ u, u ∈ opened ↔ H.Reaches t u ∧ memo.peek? u = none) ∧
        ∀ arrangement, ∃ account,
          (layer.rearranged arrangement).Accounts core state memo t account ∧
          account.OfWalk layer core.answer memo (asksFirst layer t) opened) := by
  intro H
  have hstate := And.intro hsound hpatient
  refine ⟨fun hat arrangement => ?_, fun hat found hfound arrangement => ?_, fun hat hnew => ?_⟩
  · exact accounts_at_once (layer.rearranged arrangement) hstate hat
  · exact accounts_found (layer.rearranged arrangement) hstate hat hfound
  · obtain ⟨opened, _, hnodup, hopened, _⟩ := accounts_walked layer hstate hat hnew
    refine ⟨opened, hnodup, hopened, fun arrangement => ?_⟩
    obtain ⟨opened', account, hnodup', hopened', haccount, hwalked⟩ :=
      accounts_walked (layer.rearranged arrangement) hstate hat hnew
    -- The graph is the same in any arrangement, and so are the types that are opened.
    have hperm : opened'.Perm opened :=
      (List.perm_ext_iff_of_nodup hnodup' hnodup).mpr fun u => (hopened' u).trans (hopened u).symm
    have hwalk : account.OfWalk layer core.answer memo (asksFirst layer t) opened' :=
      ⟨hwalked.heard, hwalked.asked, hwalked.has, hwalked.misses, hwalked.stores, hwalked.size,
        hwalked.hits⟩
    exact ⟨account, haccount, hwalk.perm hperm⟩

/-- A walk around a cycle, above which one type is in the memo, over a core registry that is a layer
itself. -/
theorem query_accounts_cycle :
    let below : Layer := ⟨.standard, .ofEntries [("org/gradle/D", .ofNames ["org/gradle/E"])],
      .ascending⟩
    let core : Registry := .layered below [] .empty
    let layer : Layer := ⟨.standard, .ofEntries [("a", .ofNames ["b"]),
      ("b", .ofNames ["a", "org/gradle/C", "org/gradle/D"])], .ascending⟩
    let memo := Memo.empty.store "org/gradle/C" (.ofNames ["org/gradle/C"])
    (core.Sound core.fresh ∧ core.Patient core.fresh) ∧
      ∃ account, layer.Accounts core core.fresh memo "a" account ∧
        ⟨.cacheHit, "org/gradle/C"⟩ ∈ account.heard ∧ "org/gradle/D" ∈ account.asked := by
  intro below core layer memo
  have hpatient : core.Patient core.fresh := Registry.patient_unhooked core
  refine ⟨⟨core.sound_fresh, hpatient⟩, ?_⟩
  have hat : ¬ layer.AnswersAtOnce core.answer "a" := fun h => absurd h.1 (by decide +kernel)
  obtain ⟨opened, _, hopened, haccounts⟩ :=
    (query_accounts layer core core.sound_fresh hpatient memo "a").2.2 hat (by decide +kernel)
  obtain ⟨account, haccount, hwalk⟩ := haccounts .ascending
  have hab : (layer.hierarchy core.answer memo.peek?).Leads "a" "b" :=
    ⟨by decide +kernel, by decide +kernel⟩
  have hbd : (layer.hierarchy core.answer memo.peek?).Leads "b" "org/gradle/D" :=
    ⟨by decide +kernel, by decide +kernel⟩
  have hb : "b" ∈ opened := (hopened "b").mpr ⟨.single hab, by decide +kernel⟩
  have hd : "org/gradle/D" ∈ opened :=
    (hopened _).mpr ⟨.head hab (.single hbd), by decide +kernel⟩
  refine ⟨account, haccount, hwalk.heard.mem_iff.mpr ?_, hwalk.asked.mem_iff.mpr ?_⟩
  · have hready : "org/gradle/C" ∈ (layer.hierarchy core.answer memo.peek?).ready "b" := by
      decide +kernel
    have hhit := List.mem_map_of_mem (f := Event.mk .cacheHit) (List.mem_flatMap_of_mem hb hready)
    exact List.mem_append_left _ (List.mem_append_right _ hhit)
  · have hconsults : layer.consults "org/gradle/D" = true := by decide +kernel
    exact List.mem_append_left _ (List.mem_filter.mpr ⟨hd, hconsults⟩)

end Ancestry.Closure
