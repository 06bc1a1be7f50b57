import Ancestry.Proofs.Registry.Batch

/-!
# Supertypes in another order

The supertypes of a type come in no order of their own, so nothing that is reported may depend on
the order in which they are taken.  Two layers that differ in this order alone answer a query in the
same way and leave the same memo behind, with every counter, whatever was in it before; of events
the same ones are heard, in one order or another (`query_rearranged`).  The same is true of a batch
of queries (`queryAll_rearranged`).
-/

namespace Ancestry.Closure

variable {layer : Layer} {arrangement : Arrangement} {t : TypeName}

/-! ## 1. One query -/

namespace Scene

variable {σ : Type} {core : Core σ} {valid : σ → Prop} {known : TypeName → TypeSet} {memo : Memo}
  {state state' : σ} {n n' : Nat} {set set' : TypeSet} {final final' : Scene σ}

/-- What two walks from a type leave in the memo, and what is heard of them. -/
theorem Ends.walk_rearranged {before before' : List TypeName} (hcore : core.Settled valid known)
    (hstate : valid state) (hstate' : valid state') (hat : ¬ layer.AnswersAtOnce known t)
    (hnew : memo.peek? t = none)
    (h : (atEntry t memo state before).Ends layer core n set final)
    (h' : (atEntry t memo state' before').Ends (layer.rearranged arrangement) core n' set'
      final') :
    final'.memo = final.memo ∧ final'.heard.Perm final.heard := by
  have hseeks : (Question.ancestors t).Seeks layer known t := ⟨rfl, hat⟩
  have hseeks' : (Question.ancestors t).Seeks (layer.rearranged arrangement) known t := hseeks
  have hgood := (h.answers hcore (good_atEntry hstate hseeks hnew)).1
  have hgood' := (h'.answers hcore (good_atEntry hstate' hseeks' hnew)).1
  obtain ⟨opened, hnodup, hopened, hwalk⟩ := walk_accounts hcore hstate hseeks hnew h
  obtain ⟨opened', hnodup', hopened', hwalk'⟩ := walk_accounts hcore hstate' hseeks' hnew h'
  -- Both layers have one graph, in which the same types are reached.
  have hperm : opened'.Perm opened :=
    (List.perm_ext_iff_of_nodup hnodup' hnodup).mpr fun u => (hopened' u).trans (hopened u).symm
  have hwalk' : Account.OfWalk layer known memo before' opened
      ⟨set', final'.memo, final'.asked, final'.heard⟩ :=
    Account.OfWalk.perm ⟨hwalk'.heard, hwalk'.asked, hwalk'.has, hwalk'.misses, hwalk'.stores,
      hwalk'.size, hwalk'.hits⟩ hperm
  constructor
  · exact hgood.memo.eq_of_counters hgood'.memo (fun u => (hwalk'.has u).trans (hwalk.has u).symm)
      (hwalk'.hits.trans hwalk.hits.symm) (hwalk'.misses.trans hwalk.misses.symm)
      (hwalk'.stores.trans hwalk.stores.symm)
  · exact hwalk'.heard.trans hwalk.heard.symm

/-- **A query comes to the same in any order of supertypes.** -/
theorem Ends.rearranged (hcore : core.Settled valid known) (hstate : valid state)
    (hstate' : valid state') (h : (start (.ancestors t) memo state).Ends layer core n set final)
    (h' : (start (.ancestors t) memo state').Ends (layer.rearranged arrangement) core n' set'
      final') :
    set' = set ∧ final'.memo = final.memo ∧ final'.heard.Perm final.heard := by
  have hanswer := (h.answers hcore (good_start _ memo hstate)).2
  have hanswer' := (h'.answers hcore (good_start _ memo hstate')).2
  -- Neither the graph nor what counts as an answer knows of the order.
  have hsame : (Question.ancestors t).Answers layer known memo.peek? set' := hanswer'
  have hatIff : (layer.rearranged arrangement).AnswersAtOnce known t ↔
      layer.AnswersAtOnce known t := Iff.rfl
  refine ⟨hsame.unique hanswer, ?_⟩
  by_cases hat : layer.AnswersAtOnce known t
  · obtain ⟨_, hmemo, _, hheard⟩ := h.at_once hcore hstate hat
    obtain ⟨_, hmemo', _, hheard'⟩ := h'.at_once hcore hstate' (hatIff.mpr hat)
    exact ⟨hmemo'.trans hmemo.symm, .of_eq (hheard'.trans hheard.symm)⟩
  obtain ⟨_, _, hvalid, hconsult⟩ := h.consults hcore hstate hat
  obtain ⟨_, _, hvalid', hconsult'⟩ := h'.consults hcore hstate' (mt hatIff.mp hat)
  cases hfound : memo.peek? t with
  | some found =>
    obtain ⟨_, hmemo, _, hheard⟩ := hconsult.looked_up hfound
    obtain ⟨_, hmemo', _, hheard'⟩ := hconsult'.looked_up hfound
    exact ⟨hmemo'.trans hmemo.symm, .of_eq (hheard'.trans hheard.symm)⟩
  | none =>
    obtain ⟨_, hentry⟩ := hconsult.not_found hfound
    obtain ⟨_, hentry'⟩ := hconsult'.not_found hfound
    exact hentry.walk_rearranged hcore hvalid hvalid' hat hfound hentry'

end Scene

variable {core : Registry}

/-- Worlds with the same memo, down to the counters, whose listeners have heard of the same events
in one order or another. -/
structure World.Alike (world world' : World core.State Watch) : Prop where
  memo : world'.memo = world.memo
  heard : ∃ heard heard' : List Event, heard'.Perm heard ∧
    world.listener = { hooks := [], log := heard.map .event } ∧
    world'.listener = { hooks := [], log := heard'.map .event }
  settled : core.Sound world.core ∧ core.Patient world.core
  settled' : core.Sound world'.core ∧ core.Patient world'.core

variable {world world' : World core.State Watch}

/-- **In any order of supertypes a query has the same answer and leaves the same behind.** -/
theorem query_rearranged (h : world.Alike world') (layer : Layer) (arrangement : Arrangement)
    (t : TypeName) :
    ∃ set, (layer.query core.toCore (.ancestors t) world).1 = .ok set ∧
      ((layer.rearranged arrangement).query core.toCore (.ancestors t) world').1 = .ok set ∧
      (layer.query core.toCore (.ancestors t) world).2.Alike
        ((layer.rearranged arrangement).query core.toCore (.ancestors t) world').2 := by
  obtain ⟨memo, state, listener⟩ := world
  obtain ⟨memo', state', listener'⟩ := world'
  obtain ⟨hmemo, ⟨heard, heard', hperm, hlistener, hlistener'⟩, hstate, hstate'⟩ := h
  simp only at hmemo hlistener hlistener'
  subst hmemo hlistener hlistener'
  obtain ⟨names, hlen, hspans⟩ := core.answers_answer.spans layer
  obtain ⟨names', hlen', hspans'⟩ := core.answers_answer.spans (layer.rearranged arrangement)
  obtain ⟨_, set, final, hends, hquery⟩ :=
    query_quiet hspans hlen core.settled (.ancestors t) memo' hstate (heard.map .event)
  obtain ⟨_, set', final', hends', hquery'⟩ :=
    query_quiet hspans' hlen' core.settled (.ancestors t) memo' hstate' (heard'.map .event)
  obtain ⟨rfl, hmemo, hheard⟩ := hends.rearranged core.settled hstate hstate' hends'
  rw [hquery, hquery']
  refine ⟨set', rfl, rfl, hmemo, ⟨final.heard ++ heard, final'.heard ++ heard', ?_, ?_, ?_⟩, ?_, ?_⟩
  · exact hheard.append hperm
  · simp [Scene.world]
  · simp [Scene.world]
  · exact (hends.answers core.settled (Scene.good_start _ memo' hstate)).1.core
  · exact (hends'.answers core.settled (Scene.good_start _ memo' hstate')).1.core

/-! ## 2. A batch -/

theorem answersIn_concat {σ : Type} (layer : Layer) (core : Core σ) (order : List TypeName)
    (t : TypeName) (world : World σ Watch) :
    let before := layer.answersIn core order world
    let query := layer.query core (.ancestors t) before.2
    layer.answersIn core (order ++ [t]) world =
      (do return (← before.1).insert t (← query.1), query.2) := by
  intro before query
  rw [Layer.answersIn, List.foldl_append]
  rfl

theorem answersIn_rearranged (h : world.Alike world') (layer : Layer) (arrangement : Arrangement)
    (order : List TypeName) :
    ((layer.rearranged arrangement).answersIn core.toCore order world').1 =
        (layer.answersIn core.toCore order world).1 ∧
      (layer.answersIn core.toCore order world).2.Alike
        ((layer.rearranged arrangement).answersIn core.toCore order world').2 := by
  induction order using List.reverseRecOn with
  | nil => exact ⟨rfl, h⟩
  | append_singleton order t ih =>
    obtain ⟨hanswers, halike⟩ := ih
    obtain ⟨set, hset, hset', hafter⟩ := query_rearranged halike layer arrangement t
    rw [answersIn_concat, answersIn_concat]
    exact ⟨by simp only [hanswers, hset, hset'], hafter⟩

/-- **In any order of supertypes a batch has the same answers and leaves the same behind.** -/
theorem queryAll_rearranged (h : world.Alike world') (layer : Layer) (arrangement : Arrangement)
    (types : List TypeName) :
    ((layer.rearranged arrangement).queryAll core.toCore types world').1 =
        (layer.queryAll core.toCore types world).1 ∧
      (layer.queryAll core.toCore types world).2.Alike
        ((layer.rearranged arrangement).queryAll core.toCore types world').2 := by
  obtain ⟨hanswers, halike⟩ := answersIn_rearranged h layer arrangement (distinct types)
  constructor
  · simp only [Layer.queryAll, Layer.queryAllIn, hanswers]
  · exact halike

end Ancestry.Closure
