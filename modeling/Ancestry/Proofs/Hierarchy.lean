import Mathlib.Logic.Relation
import Ancestry.Closure.Hook

/-!
# What the answers are about

A hierarchy is the graph that a layer walks: the direct supertypes of every type, and which types
are core types.  Some types may have a set that is *given*, as by an entry of the memo; an ascent
takes the set of such a type as it is and does not go on from there.

`Inherits t x` says that `x` belongs to the set of `t`, and it mentions no walk, no stack and no
order.  Where nothing is given, the set of `t` is the core types that can be reached from `t`
(`inherits_iff`).  `Answers` says what a question put to a layer is to be answered with.
-/

namespace Ancestry

namespace TypeSet

/-- A listing of a set has each member once. -/
theorem nodup_toList (a : TypeSet) : a.toList.Nodup := by
  refine (Std.ExtTreeSet.distinct_toList (t := a)).imp ?_
  intro x y hxy he
  exact hxy (by simp [he])

theorem ne_empty_iff {a : TypeSet} : a ≠ ∅ ↔ ∃ x, x ∈ a := by
  rw [Ne, Std.ExtTreeSet.eq_empty_iff_forall_not_mem, Classical.not_forall]
  exact exists_congr fun _ => Classical.not_not

end TypeSet

namespace Closure

/-! ## 1. The graph and what is inherited in it -/

/-- The direct supertypes of each type, the core types, and the sets that are given beforehand. -/
structure Hierarchy where
  above : TypeName → TypeSet
  isCore : TypeName → Bool
  given : TypeName → Option TypeSet := fun _ => none

namespace Hierarchy

/-- One step up, from a type whose set is not given. -/
def Leads (H : Hierarchy) (a b : TypeName) : Prop := H.given a = none ∧ b ∈ H.above a

/-- Any number of steps up. -/
def Reaches (H : Hierarchy) : TypeName → TypeName → Prop := Relation.ReflTransGen H.Leads

/-- `x` belongs to the set of `t`: the set is given and has `x`, or `x` is `t` itself, a core type,
or a direct supertype of `t` inherits `x`. -/
inductive Inherits (H : Hierarchy) : TypeName → TypeName → Prop
  | given {t x set} (ht : H.given t = some set) (hx : x ∈ set) : Inherits H t x
  | self {t} (ht : H.given t = none) (hc : H.isCore t = true) : Inherits H t t
  | above {t s x} (hts : H.Leads t s) (hx : Inherits H s x) : Inherits H t x

/-- `set` is the set of `t`. -/
def Denotes (H : Hierarchy) (set : TypeSet) (t : TypeName) : Prop :=
  ∀ x, x ∈ set ↔ H.Inherits t x

variable {H : Hierarchy} {a b t x : TypeName} {set : TypeSet}

theorem Inherits.of_reaches (hab : H.Reaches a b) (hx : H.Inherits b x) : H.Inherits a x := by
  induction hab using Relation.ReflTransGen.head_induction_on with
  | refl => exact hx
  | head hac _ ih => exact .above hac ih

/-- **What is inherited is what an ascent comes by**: the core types that it reaches, and the
members of the given sets that it reaches. -/
theorem inherits_iff_exists_reaches :
    H.Inherits t x ↔ ∃ e, H.Reaches t e ∧
      ((H.given e = none ∧ H.isCore e = true ∧ x = e) ∨ ∃ set, H.given e = some set ∧ x ∈ set) := by
  constructor
  · intro h
    induction h with
    | given ht hx => exact ⟨_, .refl, .inr ⟨_, ht, hx⟩⟩
    | self ht hc => exact ⟨_, .refl, .inl ⟨ht, hc, rfl⟩⟩
    | above hts _ ih =>
      obtain ⟨e, he, hx⟩ := ih
      exact ⟨e, .head hts he, hx⟩
  · rintro ⟨e, he, ⟨hg, hc, rfl⟩ | ⟨set, hg, hx⟩⟩
    · exact Inherits.of_reaches he (.self hg hc)
    · exact Inherits.of_reaches he (.given hg hx)

/-- Where no set is given, the core types that are reached are inherited, and nothing else. -/
theorem inherits_iff (hH : ∀ e, H.given e = none) :
    H.Inherits t x ↔ H.isCore x = true ∧ H.Reaches t x := by
  rw [inherits_iff_exists_reaches]
  constructor
  · rintro ⟨e, he, ⟨_, hc, rfl⟩ | ⟨set, hg, _⟩⟩
    · exact ⟨hc, he⟩
    · rw [hH e] at hg; exact absurd hg (by simp)
  · rintro ⟨hc, hx⟩
    exact ⟨x, hx, .inl ⟨hH x, hc, rfl⟩⟩

/-- A type has one set. -/
theorem Denotes.unique {set' : TypeSet} (h : H.Denotes set t) (h' : H.Denotes set' t) :
    set = set' :=
  Std.ExtTreeSet.ext_mem fun x => (h x).trans (h' x).symm

end Hierarchy

/-! ## 2. The hierarchy of a layer -/

/-- The graph that a layer walks over a core registry which answers `known`: a type has the
supertypes that were declared, and otherwise, if it is a core type, those that the core registry
answers. -/
def Layer.hierarchy (layer : Layer) (known : TypeName → TypeSet)
    (given : TypeName → Option TypeSet := fun _ => none) : Hierarchy where
  above t :=
    match layer.index.get? t with
    | some declared => declared
    | none => if layer.space.contains t then known t else ∅
  isCore := layer.space.contains
  given := given

section Steps

variable {layer : Layer} {known : TypeName → TypeSet} {x y : TypeName}

theorem leads_of_declared (h : y ∈ layer.index.getD x) : (layer.hierarchy known).Leads x y := by
  refine ⟨rfl, ?_⟩
  unfold TypeTable.getD at h
  cases hd : layer.index.get? x with
  | some declared => simpa only [Layer.hierarchy, hd, Option.getD_some] using h
  | none => simp [hd] at h

theorem leads_of_known (hx : layer.space.contains x = true) (hnone : layer.index.get? x = none)
    (hy : y ∈ known x) : (layer.hierarchy known).Leads x y := by
  refine ⟨rfl, ?_⟩
  simpa only [Layer.hierarchy, hnone, hx, if_true] using hy

/-- A step goes along the index, or from a core type that is not in the index into its set. -/
theorem leads_cases (h : (layer.hierarchy known).Leads x y) :
    y ∈ layer.index.getD x ∨
      layer.index.get? x = none ∧ layer.space.contains x = true ∧ y ∈ known x := by
  have hy := h.2
  simp only [Layer.hierarchy] at hy
  split at hy
  · next declared hd => exact .inl (by simpa only [TypeTable.getD, hd, Option.getD_some] using hy)
  · next hnone =>
    split at hy
    · next hx => exact .inr ⟨hnone, hx, hy⟩
    · exact absurd hy (by simp)

end Steps

/-- The core registry answers for the type by itself. -/
def Layer.AnswersAtOnce (layer : Layer) (known : TypeName → TypeSet) (t : TypeName) : Prop :=
  layer.space.contains t = true ∧ known t ≠ ∅

/-- The question is one for the set of `t`, to be looked up or walked for. -/
def Question.Seeks (layer : Layer) (known : TypeName → TypeSet) : Question → TypeName → Prop
  | .ancestors u, t => u = t ∧ ¬ layer.AnswersAtOnce known t
  | .closure u, t => u = t
  | .supertypes _, _ => False

/-- `set` answers the question. -/
def Question.Answers (layer : Layer) (known : TypeName → TypeSet)
    (given : TypeName → Option TypeSet) : Question → TypeSet → Prop
  | .ancestors t, set =>
    (layer.AnswersAtOnce known t → set = known t) ∧
      (¬ layer.AnswersAtOnce known t → (layer.hierarchy known given).Denotes set t)
  | .closure t, set => (layer.hierarchy known given).Denotes set t
  | .supertypes t, set => set = (layer.hierarchy known given).above t

variable {layer : Layer} {known : TypeName → TypeSet} {given : TypeName → Option TypeSet}

/-- What a question seeks the set of, the set answers it. -/
theorem Question.Seeks.answers {question : Question} {t : TypeName} {set : TypeSet}
    (h : question.Seeks layer known t) (hset : (layer.hierarchy known given).Denotes set t) :
    question.Answers layer known given set := by
  cases question with
  | ancestors u =>
    obtain ⟨rfl, hn⟩ := h
    exact ⟨fun hk => absurd hk hn, fun _ => hset⟩
  | closure u => cases h; exact hset
  | supertypes u => exact absurd h not_false

/-- A question has one answer. -/
theorem Question.Answers.unique {question : Question} {set set' : TypeSet}
    (h : question.Answers layer known given set) (h' : question.Answers layer known given set') :
    set = set' := by
  cases question with
  | ancestors t =>
    by_cases ht : layer.AnswersAtOnce known t
    · rw [h.1 ht, h'.1 ht]
    · exact (h.2 ht).unique (h'.2 ht)
  | closure t => exact Hierarchy.Denotes.unique h h'
  | supertypes t => exact Eq.trans h (Eq.symm h')

end Closure
end Ancestry
