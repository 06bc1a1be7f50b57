import Mathlib.Data.List.Perm.Subperm
import Ancestry.Proofs.Query.Debts
import Ancestry.Proofs.Session.Bookkeeping
import Ancestry.Proofs.Session.Ledger
import Ancestry.Proofs.Session.Recording

/-!
# The counters of the memo under any listener

A listener hears of every event before it does anything about it, and then it may ask questions in
the middle of a query, or cut the query short.  The counters of the memo say at every moment how
many events of each kind there have been.  A type that is missed is owed to the memo until it is
stored (`Query.outstanding`), so there are never more writes than misses, and as many if nothing was
cut short and nothing is outstanding.  Only a query in the middle of another one stores a type that
the memo has already, so otherwise the memo has as many types as there were writes
(`counters_hold`).

`Books.Next` says what can happen to the memo, to the record of events and to what is outstanding,
whatever the listener does, and all that is shown of the counters is read off it.
-/

namespace Ancestry.Closure

open scoped List

variable {σ τ : Type} {layer : Layer} {core : Core σ} {listener : Listener τ}
  {session : Session σ (τ × List Event)} {question : Question}

/-! ## 1. Histories with a record of all events -/

/-- The same listener, with a list of the events that it has heard of, the last one in front. -/
def Listener.recorded (listener : Listener τ) : Listener (τ × List Event) where
  hear e m := (listener.hear e m.1, e :: m.2)
  act e m := ((listener.act e m.1).1, (listener.act e m.1).2, m.2)
  told t outcome m := (listener.told t outcome m.1, m.2)

/-- The turn that is next cuts a query short: the listener does, or the core registry does. -/
def Session.CutsShort (layer : Layer) (core : Core σ) (listener : Listener τ)
    (session : Session σ τ) : Prop :=
  (∃ e e', session.top.delivering = some e ∧
    (listener.act e session.world.listener).1 = .cutShort e') ∨
  ∃ t next e, session.top.delivering = none ∧ layer.step session.top.query = .core t next ∧
    (core.ancestors t session.world.core).1 = .error e

/-- In the turn that is next the listener asks about a type in the middle of a query. -/
def Session.Asks (listener : Listener τ) (session : Session σ τ) : Prop :=
  ∃ e t, session.top.delivering = some e ∧
    (listener.act e session.world.listener).1 = .query t

/-- What may come after a moment: a question, a turn, or any question in the middle of a query.
Queries are cut short only if `cuts`, and there are questions in the middle of others only if
`enters`.  Between two questions the listener may come by another memory, but its record stays. -/
inductive Moment.Proceeds (layer : Layer) (core : Core σ) (listener : Listener τ)
    (cuts enters : Prop) : Moment σ (τ × List Event) → Moment σ (τ × List Event) → Prop
  | ask (world : World σ (τ × List Event)) (question : Question) (memory : τ) :
    Proceeds layer core listener cuts enters (.idle world)
      (.busy question
        ⟨question.activation, [], { world with listener := (memory, world.listener.2) }⟩)
  | turn (question : Question) (session : Session σ (τ × List Event))
    (hcut : session.CutsShort layer core listener.recorded → cuts)
    (hask : session.Asks listener.recorded → enters) :
    Proceeds layer core listener cuts enters (.busy question session)
      ((session.turn layer core listener.recorded).moment question)
  | enter (question : Question) (session : Session σ (τ × List Event)) (inner : Question)
    (henter : enters) :
    Proceeds layer core listener cuts enters (.busy question session)
      (.busy question ⟨inner.activation, session.top :: session.rest, session.world⟩)

/-- Any number of turns and questions later. -/
def Moment.Comes (layer : Layer) (core : Core σ) (listener : Listener τ) (cuts enters : Prop) :
    Moment σ (τ × List Event) → Moment σ (τ × List Event) → Prop :=
  Relation.ReflTransGen (Moment.Proceeds layer core listener cuts enters)

/-! ## 2. The books of a moment -/

/-- A memo, the events that were heard of, the last one in front, and the types that are owed to
the memo. -/
structure Books where
  memo : Memo
  heard : List Event
  outstanding : List TypeName

/-- The types that all queries under way owe to the memo. -/
def Session.outstanding {τ : Type} (session : Session σ τ) : List TypeName :=
  (session.top :: session.rest).flatMap (·.query.outstanding)

/-- The books at a moment. -/
def Moment.books : Moment σ (τ × List Event) → Books
  | .idle world => ⟨world.memo, world.listener.2, []⟩
  | .busy _ session => ⟨session.world.memo, session.world.listener.2, session.outstanding⟩

/-- What can happen to the books.  Types that are owed are given up only if `cuts`. -/
inductive Books.Next (cuts : Prop) (b : Books) : Books → Prop
  | other {outstanding : List TypeName} (new : List Event)
    (hnew : ∀ e ∈ new, e.occasion = .coreHit ∨ e.occasion = .coreUnknown)
    (howed : outstanding ~ b.outstanding) : Next cuts b ⟨b.memo, new ++ b.heard, outstanding⟩
  | giveUp {outstanding : List TypeName} (hcut : cuts) (howed : outstanding <+ b.outstanding) :
    Next cuts b ⟨b.memo, b.heard, outstanding⟩
  | hit {t : TypeName} {set : TypeSet} {outstanding : List TypeName}
    (ht : b.memo.peek? t = some set) (howed : outstanding ~ b.outstanding) :
    Next cuts b ⟨(b.memo.get t).2, ⟨.cacheHit, t⟩ :: b.heard, outstanding⟩
  | miss {t : TypeName} {outstanding : List TypeName} (ht : b.memo.peek? t = none)
    (howed : outstanding ~ t :: b.outstanding) :
    Next cuts b ⟨(b.memo.get t).2, ⟨.cacheMiss, t⟩ :: b.heard, outstanding⟩
  | store {t : TypeName} {set : TypeSet} {outstanding : List TypeName}
    (howed : t :: outstanding ~ b.outstanding) :
    Next cuts b ⟨b.memo.store t set, ⟨.cacheStore, t⟩ :: b.heard, outstanding⟩

/-- What is announced is heard, and the query that goes on owes what it then owes. -/
theorem announce_books (world : World σ (τ × List Event)) (q : Query) (event : Option Event) :
    ((session.announce listener.recorded world q event).moment question).books =
      ⟨world.memo, event.toList ++ world.listener.2,
        q.outstanding ++ session.rest.flatMap (·.query.outstanding)⟩ := by
  cases event <;> rfl

theorem conclude_books (world : World σ (τ × List Event)) (outcome : Outcome) :
    ((session.conclude listener.recorded world outcome).moment question).books =
      ⟨world.memo, world.listener.2, session.rest.flatMap (·.query.outstanding)⟩ := by
  unfold Session.conclude
  cases session.rest <;> rfl

/-- The events that come with an answer of the core registry are not those of the memo. -/
theorem step_core_occasion {q : Query} {t : TypeName} {next : TypeSet → Query × Option Occasion}
    (hstep : layer.step q = .core t next) (set : TypeSet) :
    ∀ e ∈ ((next set).2.map (⟨·, t⟩ : Occasion → Event)).toList,
      e.occasion = .coreHit ∨ e.occasion = .coreUnknown := by
  have hfetch : ∀ {u : TypeName} {next' : TypeSet → Query}, layer.fetch u next' = .core t next →
      ∀ occasion, (next set).2 = some occasion → occasion = .coreUnknown := by
    intro u next' h occasion hoccasion
    unfold Layer.fetch at h
    split at h
    · cases h
    · split at h
      · cases h
        dsimp only at hoccasion
        split at hoccasion <;> cases hoccasion
        rfl
      · cases h
  have hocc : ∀ occasion, (next set).2 = some occasion →
      occasion = .coreHit ∨ occasion = .coreUnknown := by
    intro occasion hoccasion
    obtain ⟨phase, w⟩ := q
    cases phase with
    | ask u =>
      simp only [Layer.step] at hstep
      split at hstep
      · cases hstep
        dsimp only at hoccasion
        split at hoccasion <;> cases hoccasion
        exact .inl rfl
      · cases hstep
    | consult u => cases hstep
    | direct u => exact .inr (hfetch hstep occasion hoccasion)
    | enter u => exact .inr (hfetch hstep occasion hoccasion)
    | scan =>
      simp only [Layer.step] at hstep
      split at hstep
      · cases hstep
      · split at hstep
        · cases hstep
        · split at hstep
          · cases hstep
          · split at hstep <;> cases hstep
    | close set members => cases members <;> cases hstep
    | answer set => cases hstep
  intro e he
  obtain ⟨occasion, hoccasion, rfl⟩ := Option.map_eq_some_iff.mp (Option.mem_toList.mp he)
  exact hocc occasion hoccasion

/-- **One delivery**, as the books have it: the event is told, and queries that the listener asks
begin with nothing owed. -/
theorem deliver_books {e : Event} (hd : session.top.delivering = some e) :
    Books.Next (session.CutsShort layer core listener.recorded) (Moment.busy question session).books
      ((session.deliver listener.recorded e).moment question).books := by
  have hrecord : (listener.recorded.act e session.world.listener).2.2 = session.world.listener.2 :=
    rfl
  have hstill : ∀ b : Books, b = (Moment.busy question session).books →
      Books.Next (session.CutsShort layer core listener.recorded)
        (Moment.busy question session).books b := by
    rintro _ rfl
    exact .other [] (fun _ he => absurd he List.not_mem_nil) (.refl _)
  unfold Session.deliver
  rcases hact : listener.recorded.act e session.world.listener with ⟨choice, memory⟩
  rw [hact] at hrecord
  cases choice with
  | resume => exact hstill _ (congrArg (Books.mk _ · _) hrecord)
  | query t => exact hstill _ (congrArg (Books.mk _ · _) hrecord)
  | cutShort e' =>
    have hcut : session.CutsShort layer core listener.recorded :=
      .inl ⟨e, e', hd, congrArg Prod.fst hact⟩
    dsimp only
    rw [conclude_books]
    dsimp only
    rw [hrecord]
    exact .giveUp hcut (List.sublist_append_right _ _)

/-- **What a turn does to the books.** -/
theorem turn_books {progress : Progress σ (τ × List Event)}
    (h : ∀ a ∈ session.top :: session.rest, a.Runs layer)
    (hturn : session.Turn layer core listener.recorded progress) :
    Books.Next (session.CutsShort layer core listener.recorded) (Moment.busy question session).books
      (progress.moment question).books := by
  obtain ⟨asked, past, hruns⟩ := h session.top List.mem_cons_self
  have hdebits := step_debits (hruns.recorded (recorded_activation asked))
  cases hturn with
  | deliver hd => exact deliver_books hd
  | silent hd hstep =>
    rw [hstep] at hdebits
    rw [announce_books]
    exact .other [] (fun _ he => absurd he List.not_mem_nil) (hdebits.append_right _)
  | core hd hstep hanswer =>
    have hoccasion := step_core_occasion hstep
    rw [hstep] at hdebits
    rw [announce_books]
    exact .other _ (hoccasion _) ((hdebits _).append_right _)
  | @fail t next e hd hstep hanswer =>
    rw [conclude_books]
    exact .giveUp (.inr ⟨t, next, e, hd, hstep, hanswer⟩) (List.sublist_append_right _ _)
  | hit hd hstep hset =>
    rw [hstep] at hdebits
    rw [announce_books]
    exact .hit hset ((hdebits.1 _).append_right _)
  | miss hd hstep hset =>
    rw [hstep] at hdebits
    rw [announce_books]
    exact .miss hset (hdebits.2.append_right _)
  | store hd hstep =>
    rw [hstep] at hdebits
    rw [announce_books]
    exact .store (hdebits.append_right _)
  | answer hd hstep =>
    rw [hstep] at hdebits
    rw [conclude_books]
    refine .other [] (fun _ he => absurd he List.not_mem_nil) ?_
    have houtstanding : session.outstanding = session.rest.flatMap (·.query.outstanding) := by
      rw [Session.outstanding, List.flatMap_cons, show _ = [] from hdebits, List.nil_append]
    exact .of_eq houtstanding.symm

/-! ## 3. What the books come to -/

/-- The number of events of a kind. -/
def tally (occasion : Occasion) (heard : List Event) : Nat :=
  heard.countP (·.occasion = occasion)

/-- The counters say how many events there were of each kind.  No more is owed than was missed and
not stored, and the memo has no more types than were stored. -/
structure Books.Balanced (b : Books) : Prop where
  hits : b.memo.hits = tally .cacheHit b.heard
  misses : b.memo.misses = tally .cacheMiss b.heard
  stores : b.memo.stores = tally .cacheStore b.heard
  size : b.memo.size ≤ b.memo.stores
  owed : b.memo.stores + b.outstanding.length ≤ b.memo.misses

/-- All that was missed and not stored is owed. -/
def Books.Settled (b : Books) : Prop := b.memo.stores + b.outstanding.length = b.memo.misses

/-- The memo has as many types as were stored, and what is owed is not in it. -/
structure Books.Exact (b : Books) : Prop where
  size : b.memo.size = b.memo.stores
  apart : ∀ t ∈ b.outstanding, ¬ b.memo.Has t

variable {cuts : Prop} {b b' : Books}

/-- Events that are not those of the memo do not count. -/
theorem tally_append_other {occasion : Occasion} {new heard : List Event}
    (hnew : ∀ e ∈ new, e.occasion = .coreHit ∨ e.occasion = .coreUnknown)
    (hhit : occasion ≠ .coreHit) (hunknown : occasion ≠ .coreUnknown) :
    tally occasion (new ++ heard) = tally occasion heard := by
  have hzero : new.countP (·.occasion = occasion) = 0 := by
    rw [List.countP_eq_zero]
    intro e he
    rcases hnew e he with h | h
    · simp [h, Ne.symm hhit]
    · simp [h, Ne.symm hunknown]
  rw [tally, List.countP_append, hzero, Nat.zero_add]
  rfl

/-- **The books stay balanced**, whatever happens. -/
theorem Books.Balanced.next (h : b.Balanced) (hnext : b.Next cuts b') : b'.Balanced := by
  obtain ⟨hhits, hmisses, hstores, hsize, howed⟩ := h
  cases hnext with
  | other new hnew hperm =>
    refine ⟨?_, ?_, ?_, hsize, ?_⟩
    · rw [tally_append_other hnew (by simp) (by simp)]
      exact hhits
    · rw [tally_append_other hnew (by simp) (by simp)]
      exact hmisses
    · rw [tally_append_other hnew (by simp) (by simp)]
      exact hstores
    · rw [hperm.length_eq]
      exact howed
  | giveUp hcut hsub =>
    exact ⟨hhits, hmisses, hstores, hsize,
      Nat.le_trans (Nat.add_le_add_left hsub.length_le _) howed⟩
  | hit ht hperm =>
    rw [Memo.get_of_some ht]
    refine ⟨?_, ?_, ?_, hsize, ?_⟩
    · simp [tally, hhits]
    · simpa [tally] using hmisses
    · simpa [tally] using hstores
    · rw [hperm.length_eq]
      exact howed
  | miss ht hperm =>
    rw [Memo.get_of_none ht]
    refine ⟨?_, ?_, ?_, hsize, ?_⟩
    · simpa [tally] using hhits
    · simp [tally, hmisses]
    · simpa [tally] using hstores
    · rw [hperm.length_eq]
      exact Nat.succ_le_succ howed
  | store hperm =>
    refine ⟨?_, ?_, ?_, ?_, ?_⟩
    · simpa [tally, Memo.store] using hhits
    · simpa [tally, Memo.store] using hmisses
    · simp [tally, Memo.store, hstores]
    · exact Nat.le_trans Memo.size_store_le (Nat.succ_le_succ hsize)
    · have hlen := hperm.length_eq
      simp only [List.length_cons] at hlen
      simp only [Memo.store]
      omega

/-- Where nothing is given up, all that was missed and not stored stays owed. -/
theorem Books.Settled.next (h : b.Settled) (hnext : b.Next False b') : b'.Settled := by
  unfold Books.Settled at h ⊢
  cases hnext with
  | other new hnew hperm =>
    rw [hperm.length_eq]
    exact h
  | giveUp hcut hsub => exact hcut.elim
  | hit ht hperm =>
    rw [Memo.get_of_some ht, hperm.length_eq]
    exact h
  | miss ht hperm =>
    rw [Memo.get_of_none ht, hperm.length_eq]
    exact congrArg (· + 1) h
  | store hperm =>
    have hlen := hperm.length_eq
    simp only [List.length_cons] at hlen
    simp only [Memo.store]
    omega

/-- Where nothing is owed twice, a type that is stored is new to the memo. -/
theorem Books.Exact.next (h : b.Exact) (hnodup : b.outstanding.Nodup) (hnext : b.Next cuts b') :
    b'.Exact := by
  cases hnext with
  | other new hnew hperm => exact ⟨h.size, fun t ht => h.apart t (hperm.mem_iff.mp ht)⟩
  | giveUp hcut hsub => exact ⟨h.size, fun t ht => h.apart t (hsub.subset ht)⟩
  | hit ht hperm =>
    rw [Memo.get_of_some ht]
    exact ⟨h.size, fun u hu => h.apart u (hperm.mem_iff.mp hu)⟩
  | @miss t _ ht hperm =>
    rw [Memo.get_of_none ht]
    refine ⟨h.size, fun u hu => ?_⟩
    rcases List.mem_cons.mp (hperm.mem_iff.mp hu) with rfl | hu
    · rintro ⟨set, hset⟩
      exact absurd (ht.symm.trans hset) (by simp)
    · exact h.apart u hu
  | @store t set _ hperm =>
    have ht : ¬ b.memo.Has t := h.apart t (hperm.mem_iff.mp List.mem_cons_self)
    have hnot := (List.nodup_cons.mp (hperm.nodup_iff.mpr hnodup)).1
    refine ⟨(Memo.size_store_of_not_has ht).trans (congrArg (· + 1) h.size), fun u hu => ?_⟩
    rw [Memo.has_store_iff, not_or]
    exact ⟨h.apart u (hperm.mem_iff.mp (List.mem_cons_of_mem _ hu)), fun he => hnot (he ▸ hu)⟩

/-! ## 4. Whole histories -/

/-- At this moment no query is in the middle of another one. -/
def Moment.Alone {τ : Type} : Moment σ τ → Prop
  | .idle _ => True
  | .busy _ session => session.rest = []

variable {enters : Prop} {m m' : Moment σ (τ × List Event)}

/-- Whatever comes next, the queries that are underway have a past. -/
theorem proceeds_runs (h : m.Runs layer) (hnext : m.Proceeds layer core listener cuts enters m') :
    m'.Runs layer := by
  cases hnext with
  | ask world question memory =>
    exact List.forall_mem_cons.mpr ⟨⟨question, [], .refl⟩, fun a ha => absurd ha List.not_mem_nil⟩
  | turn question session hcut hask =>
    exact turn_runs h (turn_turn layer core listener.recorded session)
  | enter question session inner henter =>
    exact List.forall_mem_cons.mpr ⟨⟨inner, [], .refl⟩, h⟩

theorem Books.Next.mono {cuts' : Prop} (hcuts : cuts → cuts') (h : b.Next cuts b') :
    b.Next cuts' b' := by
  cases h with
  | other new hnew howed => exact .other new hnew howed
  | giveUp hcut howed => exact .giveUp (hcuts hcut) howed
  | hit ht howed => exact .hit ht howed
  | miss ht howed => exact .miss ht howed
  | store howed => exact .store howed

/-- **What comes next to a moment comes next to its books.** -/
theorem proceeds_books (h : m.Runs layer) (hnext : m.Proceeds layer core listener cuts enters m') :
    m.books.Next cuts m'.books := by
  cases hnext with
  | ask world question memory =>
    refine .other [] (fun _ he => absurd he List.not_mem_nil) (.of_eq ?_)
    exact (List.append_nil _).trans (outstanding_activation question)
  | turn question session hcut hask =>
    exact (turn_books h (turn_turn layer core listener.recorded session)).mono hcut
  | enter question session inner henter =>
    refine .other [] (fun _ he => absurd he List.not_mem_nil) (.of_eq ?_)
    exact congrArg (· ++ session.outstanding) (outstanding_activation inner)

/-- Where there are no questions in the middle of others, there is no more than one query. -/
theorem proceeds_alone (h : m.Alone) (hnext : m.Proceeds layer core listener cuts False m') :
    m'.Alone := by
  cases hnext with
  | ask world question memory => rfl
  | enter question session inner henter => exact henter.elim
  | turn question session hcut hask =>
    have hrest : session.rest = [] := h
    have hann : ∀ (world : World σ (τ × List Event)) (q : Query) (event : Option Event),
        ((session.announce listener.recorded world q event).moment question).Alone := by
      intro world q event
      cases event <;> exact hrest
    have hconclude : ∀ (world : World σ (τ × List Event)) (outcome : Outcome),
        ((session.conclude listener.recorded world outcome).moment question).Alone := by
      intro world outcome
      simp only [Session.conclude, hrest]
      trivial
    have hturn := turn_turn layer core listener.recorded session
    generalize session.turn layer core listener.recorded = progress at hturn
    cases hturn with
    | @deliver e hd =>
      unfold Session.deliver
      rcases hact : listener.recorded.act e session.world.listener with ⟨choice, memory⟩
      cases choice with
      | resume => exact hrest
      | query t => exact (hask ⟨e, t, hd, congrArg Prod.fst hact⟩).elim
      | cutShort e' => exact hconclude _ _
    | silent _ _ => exact hann _ _ _
    | core _ _ _ => exact hann _ _ _
    | fail _ _ _ => exact hconclude _ _
    | hit _ _ _ => exact hann _ _ _
    | miss _ _ _ => exact hann _ _ _
    | store _ _ => exact hann _ _ _
    | answer _ _ => exact hconclude _ _

/-- The only query under way owes no type twice. -/
theorem Moment.Alone.nodup_outstanding (h : m.Alone) (hruns : m.Runs layer) :
    m.books.outstanding.Nodup := by
  cases m with
  | idle world => exact .nil
  | busy question session =>
    obtain ⟨asked, past, htop⟩ := hruns session.top List.mem_cons_self
    have houtstanding : session.outstanding = session.top.query.outstanding := by
      rw [Session.outstanding, show session.rest = [] from h, List.flatMap_cons, List.flatMap_nil,
        List.append_nil]
    show session.outstanding.Nodup
    rw [houtstanding]
    exact (htop.recorded (recorded_activation asked)).nodup_outstanding

/-- The books stay balanced from one moment to the next. -/
theorem comes_balanced (hruns : m.Runs layer) (h : m.books.Balanced)
    (hcomes : m.Comes layer core listener cuts enters m') :
    m'.Runs layer ∧ m'.books.Balanced := by
  induction hcomes with
  | refl => exact ⟨hruns, h⟩
  | tail _ hnext ih => exact ⟨proceeds_runs ih.1 hnext, ih.2.next (proceeds_books ih.1 hnext)⟩

/-- They stay settled as long as no query is cut short. -/
theorem comes_settled (hruns : m.Runs layer) (h : m.books.Settled)
    (hcomes : m.Comes layer core listener False enters m') :
    m'.Runs layer ∧ m'.books.Settled := by
  induction hcomes with
  | refl => exact ⟨hruns, h⟩
  | tail _ hnext ih => exact ⟨proceeds_runs ih.1 hnext, ih.2.next (proceeds_books ih.1 hnext)⟩

/-- They stay exact as long as nobody else asks. -/
theorem comes_exact (hruns : m.Runs layer) (halone : m.Alone) (h : m.books.Exact)
    (hcomes : m.Comes layer core listener cuts False m') :
    m'.Runs layer ∧ m'.Alone ∧ m'.books.Exact := by
  induction hcomes with
  | refl => exact ⟨hruns, halone, h⟩
  | tail _ hnext ih =>
    obtain ⟨hruns, halone, h⟩ := ih
    exact ⟨proceeds_runs hruns hnext, proceeds_alone halone hnext,
      h.next (halone.nodup_outstanding hruns) (proceeds_books hruns hnext)⟩

/-- The turns of a run come one after the other. -/
theorem run_comes
    (hcut : ∀ session, Session.CutsShort layer core listener.recorded session → cuts)
    (hask : ∀ session : Session σ (τ × List Event), session.Asks listener.recorded → enters)
    (question : Question) (turns : Nat) : ∀ session : Session σ (τ × List Event),
      Moment.Comes layer core listener cuts enters (.busy question session)
        ((session.run layer core listener.recorded turns).moment question) := by
  induction turns with
  | zero => exact fun _ => .refl
  | succ turns ih =>
    intro session
    have hturn : Moment.Proceeds layer core listener cuts enters (.busy question session) _ :=
      .turn question session (hcut session) (hask session)
    unfold Session.run
    cases hp : session.turn layer core listener.recorded with
    | ongoing next =>
      rw [hp] at hturn
      exact .head hturn (ih next)
    | ended outcome world =>
      rw [hp] at hturn
      exact .single hturn

/-- A question that is put to an idle layer, and the turns after it. -/
theorem ask_comes
    (hcut : ∀ session, Session.CutsShort layer core listener.recorded session → cuts)
    (hask : ∀ session : Session σ (τ × List Event), session.Asks listener.recorded → enters)
    (world : World σ (τ × List Event)) (question : Question) (turns : Nat) :
    Moment.Comes layer core listener cuts enters (.idle world)
      ((Session.run layer core listener.recorded turns
        ⟨question.activation, [], world⟩).moment question) :=
  .head (.ask world question world.listener.1) (run_comes hcut hask question turns _)

/-- **The counters of the memo, whatever the listener does.**  A layer is new, and from then on
questions are put to it, also in the middle of others, and the listener may cut queries short.  At
every moment there were as many hits, misses and writes as there were events of each kind, and the
memo has no more types than there were writes, and these are no more than the misses.  Where nothing
was ever cut short, there were as many writes as misses when no query is under way; and where no
question was put in the middle of another one, the memo has as many types as there were writes. -/
theorem counters_hold (layer : Layer) (core : Core σ) (listener : Listener τ) (state : σ)
    (memory : τ) :
    let fresh : Moment σ (τ × List Event) := .idle ⟨.empty, state, memory, []⟩
    (∀ moment, fresh.Comes layer core listener True True moment →
      moment.world.memo.hits = tally .cacheHit moment.world.listener.2 ∧
      moment.world.memo.misses = tally .cacheMiss moment.world.listener.2 ∧
      moment.world.memo.stores = tally .cacheStore moment.world.listener.2 ∧
      moment.world.memo.size ≤ moment.world.memo.stores ∧
      moment.world.memo.stores ≤ moment.world.memo.misses) ∧
    (∀ enters world, fresh.Comes layer core listener False enters (.idle world) →
      world.memo.misses = world.memo.stores) ∧
    ∀ cuts moment, fresh.Comes layer core listener cuts False moment →
      moment.world.memo.stores = moment.world.memo.size := by
  intro fresh
  have hworld : ∀ moment : Moment σ (τ × List Event),
      moment.books.memo = moment.world.memo ∧ moment.books.heard = moment.world.listener.2 := by
    intro moment
    cases moment <;> exact ⟨rfl, rfl⟩
  have hruns : fresh.Runs layer := trivial
  refine ⟨fun moment hcomes => ?_, fun enters world hcomes => ?_, fun cuts moment hcomes => ?_⟩
  · obtain ⟨_, hhits, hmisses, hstores, hsize, howed⟩ :=
      comes_balanced hruns ⟨rfl, rfl, rfl, Nat.le_refl _, Nat.le_refl _⟩ hcomes
    rw [(hworld moment).1] at hhits hmisses hstores hsize howed
    rw [(hworld moment).2] at hhits hmisses hstores
    exact ⟨hhits, hmisses, hstores, hsize, Nat.le_trans (Nat.le_add_right _ _) howed⟩
  · exact (comes_settled (m := fresh) hruns rfl hcomes).2.symm
  · have hexact := (comes_exact (m := fresh) hruns trivial
      ⟨rfl, fun t ht => absurd ht List.not_mem_nil⟩ hcomes).2.2.size
    rw [(hworld moment).1] at hexact
    exact hexact.symm

/-- A listener that never cuts a query short, over a core registry that never does. -/
theorem not_cutsShort {ancestors : TypeTable} {listener : Listener τ}
    (hact : ∀ e e' m, (listener.act e m).1 ≠ .cutShort e')
    (session : Session (Registry.table ancestors).State (τ × List Event)) :
    ¬ session.CutsShort layer (Registry.table ancestors).toCore listener.recorded := by
  rintro (⟨e, e', _, he⟩ | ⟨t, next, e, _, _, he⟩)
  · exact hact e e' _ he
  · cases he

/-- A question about one type of a cycle in the middle of a walk from the other one: both walks
store both types, so there are more writes than types in the memo.  If the outer walk is cut short
later, there are more misses than writes. -/
theorem counters_hold_reentered :
    let layer : Layer := ⟨.standard, .ofEntries [("a", .ofNames ["b"]), ("b", .ofNames ["a"]),
      ("z", .ofNames ["a", "y"])], .ascending⟩
    let core := Registry.empty
    let hooks : List Hook := [⟨⟨.cacheMiss, "b"⟩, .query "b"⟩, ⟨⟨.cacheMiss, "y"⟩, .cutShort⟩]
    let asking : Listener Bool := ⟨fun _ m => m, fun e m =>
      if m ∧ e = ⟨.cacheMiss, "b"⟩ then (.query "b", false) else (.resume, m), fun _ _ m => m⟩
    (∃ moment, Moment.Comes layer core.toCore .hooks True True
        (.idle ⟨.empty, core.fresh, { hooks := hooks }, []⟩) moment ∧
      moment.world.memo.misses = 6 ∧ tally .cacheStore moment.world.listener.2 = 4 ∧
      moment.world.memo.stores = 4 ∧ moment.world.memo.size = 2) ∧
    (∃ world, Moment.Comes layer core.toCore asking False True
        (.idle ⟨.empty, core.fresh, true, []⟩) (.idle world) ∧
      world.memo.misses = 6 ∧ world.memo.stores = 6 ∧ world.memo.size = 4) ∧
    ∃ moment, Moment.Comes layer core.toCore .deaf True False
        (.idle ⟨.empty, core.fresh, (), []⟩) moment ∧
      moment.world.memo.stores = 4 ∧ moment.world.memo.size = 4 := by
  intro layer core hooks asking
  have hnever : ∀ e e' m, (asking.act e m).1 ≠ .cutShort e' := by
    intro e e' m
    dsimp only [asking]
    split <;> exact Choice.noConfusion
  have hcut : ∀ session : Session core.State (Bool × List Event),
      ¬ session.CutsShort layer core.toCore asking.recorded := not_cutsShort hnever
  refine ⟨?_, ?_, ?_⟩
  · have hcomes : Moment.Comes layer core.toCore .hooks True True _ _ :=
      ask_comes (fun _ _ => trivial) (fun _ _ => trivial)
        ⟨.empty, core.fresh, { hooks := hooks }, []⟩ (.closure "z") 60
    obtain ⟨_, _, hstores, _⟩ :=
      (counters_hold layer core.toCore .hooks core.fresh { hooks := hooks }).1 _ hcomes
    refine ⟨_, hcomes, by decide +kernel, ?_, by decide +kernel, by decide +kernel⟩
    rw [← hstores]
    decide +kernel
  · have hcomes : Moment.Comes layer core.toCore asking False True _ _ :=
      ask_comes (fun session h => hcut session h) (fun _ _ => trivial)
        ⟨.empty, core.fresh, true, []⟩ (.closure "z") 90
    have hended : (match Session.run layer core.toCore asking.recorded 90
        ⟨(Question.closure "z").activation, [], ⟨.empty, core.fresh, true, []⟩⟩ with
      | .ended _ world => (world.memo.misses, world.memo.size)
      | .ongoing _ => (0, 0)) = (6, 4) := by
      decide +kernel
    cases hp : Session.run layer core.toCore asking.recorded 90
        ⟨(Question.closure "z").activation, [], ⟨.empty, core.fresh, true, []⟩⟩ with
    | ongoing session =>
      rw [hp] at hended
      cases hended
    | ended outcome world =>
      rw [hp] at hended hcomes
      obtain ⟨hmisses, hsize⟩ := Prod.mk.inj hended
      have hstores := (counters_hold layer core.toCore asking core.fresh true).2.1 _ _ hcomes
      exact ⟨world, hcomes, hmisses, hstores.symm.trans hmisses, hsize⟩
  · have hcomes : Moment.Comes layer core.toCore .deaf True False _ _ :=
      ask_comes (fun _ _ => trivial) (fun session ⟨_, _, _, he⟩ => Choice.noConfusion he)
        ⟨.empty, core.fresh, (), []⟩ (.closure "z") 90
    have hsize := (counters_hold layer core.toCore .deaf core.fresh ()).2.2 _ _ hcomes
    refine ⟨_, hcomes, ?_, by decide +kernel⟩
    rw [hsize]
    decide +kernel

end Ancestry.Closure
