import Ancestry.Proofs.Registry.Accounting

/-!
# A walk beside a memo that may hold anything

A memo may have sets that are not those of their types: somebody has put them there, or a walk was
cut short in the middle of a component, of which only a part is in the memo then.  A walk takes what
it finds for what it is.  It does not go on from a type of the memo, so it keeps to the part of the
graph around the memo (`Layer.Around`), and a type there gets the core types of this part that are
above it, together with all sets of the memo at which this part ends (`inherits_around_iff`).

The walk adds these sets and no others, and changes nothing that is in the memo
(`closure_around`).
-/

namespace Ancestry.Closure

open Scene

variable {layer : Layer} {known : TypeName → TypeSet} {memo : Memo} {e t u x : TypeName}

/-! ## 1. The graph around a memo -/

/-- Any number of steps up, to types that are not in the memo. -/
def Layer.Around (layer : Layer) (known : TypeName → TypeSet) (memo : Memo) :
    TypeName → TypeName → Prop :=
  Relation.ReflTransGen fun a b =>
    b ∈ (layer.hierarchy known).above a ∧ memo.peek? b = none

/-- From a type that is not in the memo, an ascent that ends at such a type stays around the memo,
since it cannot leave a type of the memo again. -/
theorem around_iff (ht : memo.peek? t = none) :
    layer.Around known memo t u ↔
      (layer.hierarchy known memo.peek?).Reaches t u ∧ memo.peek? u = none := by
  constructor
  · intro h
    induction h with
    | refl => exact ⟨.refl, ht⟩
    | tail _ hbc ih => exact ⟨ih.1.tail ⟨ih.2, hbc.1⟩, hbc.2⟩
  · rintro ⟨hreach, hu⟩
    induction hreach with
    | refl => exact .refl
    | tail _ hlead ih => exact (ih hlead.1).tail ⟨hlead.2, hu⟩

/-- **What a type around the memo inherits** are the core types around the memo above it, and what
the memo has for the types at which an ascent comes upon it. -/
theorem inherits_around_iff (he : memo.peek? e = none) :
    (layer.hierarchy known memo.peek?).Inherits e x ↔
      (layer.space.contains x = true ∧ layer.Around known memo e x) ∨
      ∃ u s set, layer.Around known memo e u ∧ s ∈ (layer.hierarchy known).above u ∧
        memo.peek? s = some set ∧ x ∈ set := by
  rw [Hierarchy.inherits_iff_exists_reaches]
  constructor
  · rintro ⟨s, hreach, ⟨hs, hcore, rfl⟩ | ⟨set, hs, hx⟩⟩
    · exact .inl ⟨hcore, (around_iff he).mpr ⟨hreach, hs⟩⟩
    · -- The type of the memo is not the first one, so there is one before it.
      rcases Relation.ReflTransGen.cases_tail hreach with rfl | ⟨u, hu, hlead⟩
      · exact absurd (he.symm.trans hs) (by simp)
      · exact .inr ⟨u, s, set, (around_iff he).mpr ⟨hu, hlead.1⟩, hlead.2, hs, hx⟩
  · rintro (⟨hcore, haround⟩ | ⟨u, s, set, haround, hs, hset, hx⟩)
    · obtain ⟨hreach, hx⟩ := (around_iff he).mp haround
      exact ⟨x, hreach, .inl ⟨hx, hcore, rfl⟩⟩
    · obtain ⟨hreach, hu⟩ := (around_iff he).mp haround
      exact ⟨s, hreach.tail ⟨hu, hs⟩, .inr ⟨set, hset, hx⟩⟩

/-! ## 2. One walk -/

/-- What is in the memo after a walk is what was in it before, and the types around the memo that
the walk reaches. -/
theorem has_around {σ : Type} {core : Core σ} {valid : σ → Prop} {n : Nat} {set : TypeSet}
    {state : σ} {final : Scene σ} (hcore : core.Settled valid known) (hstate : valid state)
    (hnew : memo.peek? t = none)
    (hends : (start (.closure t) memo state).Ends layer core n set final) :
    final.memo.Has u ↔ memo.Has u ∨ layer.Around known memo t u := by
  have hseeks : (Question.closure t).Seeks layer known t := rfl
  obtain ⟨n', hentry⟩ : ∃ n', (atEntry t memo state []).Ends layer core n' set final :=
    Ends.not_found hnew hends
  obtain ⟨opened, _, hopened, hwalk⟩ := walk_accounts hcore hstate hseeks hnew hentry
  rw [hwalk.has, hopened, around_iff hnew]

/-- **One walk beside any memo.**  What is in the memo stays there.  The types that the walk adds
are those around the memo that it reaches, each with the core types around the memo above it and
with what the memo has for the types at which an ascent from it comes upon the memo.  The set added
for the type that was asked about is the answer. -/
theorem closure_around (layer : Layer) (core : Registry) {state : core.State}
    (hsound : core.Sound state) (hpatient : core.Patient state) (memo : Memo) (log : List Note)
    {t : TypeName} (hnew : memo.peek? t = none) :
    let H := layer.hierarchy core.answer
    ∃ set world, layer.query core.toCore (.closure t) ⟨memo, state, { hooks := [], log := log }⟩ =
        (.ok set, world) ∧
      world.memo.peek? t = some set ∧
      (∀ u found, memo.peek? u = some found → world.memo.peek? u = some found) ∧
      (∀ u, world.memo.Has u ↔ memo.Has u ∨ layer.Around core.answer memo t u) ∧
      ∀ e, layer.Around core.answer memo t e → ∃ added, world.memo.peek? e = some added ∧
        ∀ x, x ∈ added ↔ (layer.space.contains x = true ∧ layer.Around core.answer memo e x) ∨
          ∃ u s found, layer.Around core.answer memo e u ∧ s ∈ H.above u ∧
            memo.peek? s = some found ∧ x ∈ found := by
  intro H
  have hstate := And.intro hsound hpatient
  obtain ⟨names, hlen, hspans⟩ := core.answers_answer.spans layer
  obtain ⟨n, set, final, hends, hquery⟩ :=
    query_quiet hspans hlen core.settled (.closure t) memo hstate log
  obtain ⟨hgood, hdenotes⟩ := hends.answers core.settled (good_start (.closure t) memo hstate)
  have hhas : ∀ u, final.memo.Has u ↔ memo.Has u ∨ layer.Around core.answer memo t u :=
    fun u => has_around core.settled hstate hnew hends
  refine ⟨set, _, hquery, ?_, hgood.keeps, hhas, fun e he => ?_⟩
  · obtain ⟨added, hadded⟩ := (hhas t).mpr (.inr .refl)
    exact hadded.trans (congrArg some ((hgood.memo t added hadded).unique hdenotes))
  · obtain ⟨added, hadded⟩ := (hhas e).mpr (.inr he)
    have hnone := ((around_iff hnew).mp he).2
    exact ⟨added, hadded, fun x => (hgood.memo e added hadded x).trans (inherits_around_iff hnone)⟩

/-- The memo has a set for a type above a cycle which is not the set of this type.  The walk comes
upon it after it has left the second type of the cycle, which gets the set all the same. -/
theorem closure_around_cycle :
    let layer : Layer := ⟨.standard, .ofEntries [("a", .ofNames ["b", "c"]),
      ("b", .ofNames ["a"])], .ascending⟩
    let memo := Memo.empty.store "c" (.ofNames ["stray"])
    let core := Registry.empty
    (core.Sound core.fresh ∧ core.Patient core.fresh ∧ memo.peek? "a" = none) ∧
      ∃ set world, layer.query core.toCore (.closure "a") ⟨memo, core.fresh, { hooks := [] }⟩ =
          (.ok set, world) ∧
        ∃ added, world.memo.peek? "b" = some added ∧ "stray" ∈ added := by
  intro layer memo core
  have hnew : memo.peek? "a" = none := by decide +kernel
  refine ⟨⟨trivial, trivial, hnew⟩, ?_⟩
  obtain ⟨set, world, hquery, _, _, _, hadded⟩ :=
    closure_around layer core core.sound_fresh trivial memo [] hnew
  have hab : layer.Around core.answer memo "a" "b" :=
    .single ⟨by decide +kernel, by decide +kernel⟩
  have hba : layer.Around core.answer memo "b" "a" :=
    .single ⟨by decide +kernel, by decide +kernel⟩
  obtain ⟨added, hpeek, hmem⟩ := hadded "b" hab
  refine ⟨set, world, hquery, added, hpeek, (hmem "stray").mpr (.inr ?_)⟩
  exact ⟨"a", "c", .ofNames ["stray"], hba, by decide +kernel, by decide +kernel,
    by decide +kernel⟩

end Ancestry.Closure
