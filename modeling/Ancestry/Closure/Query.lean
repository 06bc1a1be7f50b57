import Ancestry.Closure.Event
import Ancestry.Closure.Walk
import Ancestry.CoreNamespace
import Ancestry.TypeTable

/-!
# One query, step by step

A query asks a layer about one type.  It runs in steps, and `Layer.step` says for each of its
states what comes next: either the query goes on by itself, or it needs something that is not its
own, an answer of the core registry, a look into the memo or a write to it.  The memo may change
between any two steps, through other queries that share it; nothing here depends on who takes the
next step.

* A core type is put to the core registry first, and an answer that is not empty is the answer.
* Any other question is looked up in the memo, and answered from there if the type is in it.
* Otherwise a walk begins at the type.  It puts each supertype that it draws to the same tests in
  the same order: still on the stack, finished in this walk, in the memo; what none of them knows
  is entered.
-/

namespace Ancestry.Closure

/-- The order in which the members of a set are taken, which may be another one for each type that
they are supertypes of. -/
structure Arrangement where
  list : TypeName → TypeSet → List TypeName
  perm : ∀ t set, (list t set).Perm set.toList

/-- The arrangement in ascending order. -/
def Arrangement.ascending : Arrangement := ⟨fun _ set => set.toList, fun _ _ => .refl _⟩

/-- What is fixed about a registry that walks: which types are core types, the supertypes that were
declared, and the order in which they are taken. -/
structure Layer where
  space : CoreNamespace
  index : TypeTable
  arrangement : Arrangement := .ascending

/-- How far a query has come. -/
inductive Phase
  /-- The ancestors of a type are asked for. -/
  | ask (t : TypeName)
  /-- The set of a type is wanted from the memo or else from a walk. -/
  | consult (t : TypeName)
  /-- The direct supertypes of a type are asked for. -/
  | direct (t : TypeName)
  /-- The walk is about to enter a type. -/
  | enter (t : TypeName)
  /-- The walk is about to take the next supertype of its innermost frame. -/
  | scan
  /-- A component is closed, and the set is still to be stored for `members`. -/
  | close (set : TypeSet) (members : List TypeName)
  /-- The answer is known. -/
  | answer (set : TypeSet)

/-- The state of a query. -/
structure Query where
  phase : Phase
  walk : Walk := .empty

/-- What a query does next. -/
inductive Step
  /-- It goes on by itself. -/
  | silent (next : Query)
  /-- It asks the core registry about `t`, and there may be something to tell about the answer. -/
  | core (t : TypeName) (next : TypeSet → Query × Option Occasion)
  /-- It looks `t` up in the memo. -/
  | lookup (t : TypeName) (hit : TypeSet → Query) (miss : Query)
  /-- It stores the set of `t` in the memo. -/
  | store (t : TypeName) (set : TypeSet) (next : Query)
  /-- It is answered. -/
  | answer (set : TypeSet)

namespace Layer

/-- Goes on with the direct supertypes of a type: those declared, if any entry declares them, and
otherwise what the core registry says, if it is a core type. -/
def fetch (layer : Layer) (t : TypeName) (next : TypeSet → Query) : Step :=
  match layer.index.get? t with
  | some declared => .silent (next declared)
  | none =>
    if layer.space.contains t then
      .core t fun known => (next known, if known.isEmpty then some .coreUnknown else none)
    else .silent (next ∅)

/-- Goes on after a frame is done and its set handed on: the set of the last frame is the answer. -/
def resume (w : Walk) (set : TypeSet) : Query :=
  ⟨if w.frames.isEmpty then .answer set else .scan, w⟩

/-- Leaves the innermost frame `f`.  If the type reaches an earlier one of the stack, what it has
collected is put aside; otherwise its component is complete. -/
def leave (w : Walk) (f : Frame) : Query :=
  let w' := { w with frames := w.frames.tail }
  let low := w.lowOf f.type
  if low ≠ w.orderOf f.type then
    resume ({ w' with partials := w'.partials.insert f.type f.collected }.yield f.collected low)
      f.collected
  else
    let set := w.componentSet f.type f.collected
    ⟨.close set (w.component f.type), (w'.closeComponent f.type set).yield set low⟩

/-- The next step of a query. -/
def step (layer : Layer) (q : Query) : Step :=
  match q.phase with
  | .ask t =>
    if layer.space.contains t then
      .core t fun known =>
        if known.isEmpty then ({ q with phase := .consult t }, none)
        else ({ q with phase := .answer known }, some .coreHit)
    else .silent { q with phase := .consult t }
  | .consult t =>
    .lookup t (fun set => { q with phase := .answer set }) { q with phase := .enter t }
  | .direct t => layer.fetch t fun set => { q with phase := .answer set }
  | .enter t =>
    layer.fetch t fun set =>
      ⟨.scan, q.walk.enter t (layer.space.contains t) (layer.arrangement.list t set)⟩
  | .scan =>
    match q.walk.frames with
    | [] => .answer ∅
    | f :: _ =>
      match f.pending with
      | [] => .silent (leave q.walk f)
      | s :: _ =>
        let w := q.walk.drop
        if s ∈ w.onStack then .silent ⟨.scan, w.lower f.type (w.orderOf s)⟩
        else match w.finished[s]? with
          | some set => .silent ⟨.scan, w.collect set⟩
          | none => .lookup s (fun set => ⟨.scan, w.collect set⟩) ⟨.enter s, w⟩
  | .close set [] => .silent (resume q.walk set)
  | .close set (t :: members) => .store t set { q with phase := .close set members }
  | .answer set => .answer set

end Layer
end Ancestry.Closure
