import Ancestry.Command.Run
import Ancestry.Proofs.Document.Readable
import Ancestry.Proofs.Query.Books
import Ancestry.Proofs.Registry.Sound

/-!
# What the documents of a run describe

A run has two documents, of which the second may be left out, and settings that say which types are
core types and how names are written.  Together they describe a graph, and `Sources` says in their
own terms what is to be answered about a type, without a table, a registry or a walk.  A hierarchy
that is made of them answers just that (`Hierarchy.Describes.answers_iff`).
-/

namespace Ancestry.Command

open Closure
open Document (Entries)

/-- What a run is given: the namespace of the core system, whether names are written with dots, the
entries of the document with the direct supertypes, and those of the document with the ancestors of
the core types. -/
structure Sources where
  space : CoreNamespace
  dotted : Bool
  declared : Entries
  known : Entries

/-- In no document of the request half a character stands alone. -/
def Request.WholeDocuments (request : Request) (files : String → File) : Prop :=
  ∀ path ∈ request.documents, ¬ (files path).HasLoneHalf

namespace Sources

/-- The direct supertypes of a type are those that are declared.  For a core type for which nothing
is declared they are the ancestors that are known. -/
def Leads (S : Sources) (t s : TypeName) : Prop :=
  S.declared.Lists S.dotted t s ∨
    ¬ S.declared.Declares S.dotted t ∧ S.space.contains t = true ∧ S.known.Lists S.dotted t s

/-- Any number of steps up. -/
def Reaches (S : Sources) : TypeName → TypeName → Prop := Relation.ReflTransGen S.Leads

/-- The type is a core type that has known ancestors. -/
def AnswersAtOnce (S : Sources) (t : TypeName) : Prop :=
  S.space.contains t = true ∧ ∃ x, S.known.Lists S.dotted t x

/-- `x` is to be named among the ancestors of `t`: one of the known ancestors, if there are any that
count, and otherwise a core type that can be reached. -/
def Ancestor (S : Sources) (t x : TypeName) : Prop :=
  S.AnswersAtOnce t ∧ S.known.Lists S.dotted t x ∨
    ¬ S.AnswersAtOnce t ∧ S.space.contains x = true ∧ S.Reaches t x

/-- The type is a core type for which nothing is declared and no ancestor is known. -/
def Unknown (S : Sources) (t : TypeName) : Prop :=
  S.space.contains t = true ∧ ¬ S.declared.Declares S.dotted t ∧
    ¬ ∃ x, S.known.Lists S.dotted t x

/-- The type can be reached from one of the types `asked` that is not answered at once. -/
def Reached (S : Sources) (asked : List TypeName) (t : TypeName) : Prop :=
  ∃ u ∈ asked, ¬ S.AnswersAtOnce u ∧ S.Reaches u t

end Sources

/-- The hierarchy is what the sources describe. -/
structure Hierarchy.Describes (hierarchy : Hierarchy) (S : Sources) : Prop where
  space : hierarchy.layer.space = S.space
  index : hierarchy.layer.index.Describes S.dotted S.declared
  core : hierarchy.core.Describes S.dotted S.known

namespace Hierarchy.Describes

variable {hierarchy : Hierarchy} {S : Sources} {t s x : TypeName} {set : TypeSet}

theorem ne_empty_iff (h : hierarchy.Describes S) :
    hierarchy.core.getD t ≠ ∅ ↔ ∃ x, S.known.Lists S.dotted t x := by
  rw [TypeSet.ne_empty_iff]
  exact exists_congr fun x => h.core.mem_getD t x

theorem answersAtOnce_iff (h : hierarchy.Describes S) :
    hierarchy.layer.AnswersAtOnce hierarchy.core.getD t ↔ S.AnswersAtOnce t := by
  rw [Layer.AnswersAtOnce, Sources.AnswersAtOnce, h.space, h.ne_empty_iff]

/-- The hierarchy leads where the documents do. -/
theorem leads_iff (h : hierarchy.Describes S) :
    (hierarchy.layer.hierarchy hierarchy.core.getD).Leads t s ↔ S.Leads t s := by
  have hdeclares := h.index.get?_ne_none t
  have hlists := h.index.mem_getD t s
  rw [TypeTable.getD] at hlists
  simp only [Closure.Hierarchy.Leads, Layer.hierarchy, true_and, Sources.Leads]
  cases hset : hierarchy.layer.index.get? t with
  | some declared =>
    rw [hset] at hdeclares hlists
    have hdeclared : S.declared.Declares S.dotted t := hdeclares.mp (by simp)
    rw [← hlists, Option.getD_some]
    exact (or_iff_left fun hs => hs.1 hdeclared).symm
  | none =>
    rw [hset] at hdeclares hlists
    have hnone : ¬ S.declared.Declares S.dotted t := fun hd => hdeclares.mpr hd rfl
    have hnot : ¬ S.declared.Lists S.dotted t s := fun hs => hnone hs.declares
    rw [h.space, or_iff_right hnot, and_iff_right hnone, ← h.core.mem_getD]
    cases S.space.contains t with
    | true => simp
    | false => simp

theorem reaches_iff (h : hierarchy.Describes S) :
    (hierarchy.layer.hierarchy hierarchy.core.getD).Reaches t x ↔ S.Reaches t x := by
  have hleads : (hierarchy.layer.hierarchy hierarchy.core.getD).Leads = S.Leads :=
    funext fun a => funext fun b => propext h.leads_iff
  rw [Closure.Hierarchy.Reaches, hleads, Sources.Reaches]

/-- The types that are unknown to the hierarchy are those that are unknown to the documents. -/
theorem unknown_iff (h : hierarchy.Describes S) :
    hierarchy.layer.unknown hierarchy.core.getD t = true ↔ S.Unknown t := by
  have hdeclares := h.index.get?_ne_none t
  have hknown := h.ne_empty_iff (t := t)
  rw [Layer.unknown, Layer.consults, Sources.Unknown, h.space, ← hdeclares, ← hknown]
  simp [and_assoc]

theorem reached_iff (h : hierarchy.Describes S) (asked : List TypeName) :
    (∃ u ∈ asked, ¬ hierarchy.layer.AnswersAtOnce hierarchy.core.getD u ∧
      (hierarchy.layer.hierarchy hierarchy.core.getD).Reaches u t) ↔ S.Reached asked t := by
  simp only [h.answersAtOnce_iff, h.reaches_iff, Sources.Reached]

/-- **The hierarchy answers what the documents say.** -/
theorem answers_iff (h : hierarchy.Describes S)
    (hset : (Question.ancestors t).Answers hierarchy.layer hierarchy.core.getD (fun _ => none) set)
    (x : TypeName) : x ∈ set ↔ S.Ancestor t x := by
  by_cases hat : S.AnswersAtOnce t
  · rw [hset.1 (h.answersAtOnce_iff.mpr hat), h.core.mem_getD, Sources.Ancestor]
    simp [hat]
  · have hdenotes := hset.2 (mt h.answersAtOnce_iff.mp hat) x
    rw [hdenotes, Closure.Hierarchy.inherits_iff fun _ => rfl, h.reaches_iff, Sources.Ancestor]
    simp [hat, Layer.hierarchy, h.space]

end Hierarchy.Describes
end Ancestry.Command
