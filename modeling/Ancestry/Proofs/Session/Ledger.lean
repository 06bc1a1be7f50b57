import Ancestry.Proofs.Query.Books
import Ancestry.Proofs.Session.Quiet

/-!
# What a walk adds up to

The events of a walk, its questions to the core registry and the counters of the memo are all
accounted for by the types that the walk opens (`Scene.Ledger`), at every move.  When the walk is at
its end nothing is outstanding, and the types opened are those that are reached without passing
through a type of the memo (`Scene.Ledger.opened_iff`): they alone say what happened
(`Scene.walk_accounts`).
-/

namespace Ancestry.Closure

open scoped List

/-! ## 1. Events of one kind -/

/-- The types of the events of one kind, in the order of the events. -/
def typesAt (occasion : Occasion) (events : List Event) : List TypeName :=
  events.filterMap fun e => if e.occasion = occasion then some e.type else none

@[simp] theorem typesAt_nil (occasion : Occasion) : typesAt occasion [] = [] := rfl

@[simp] theorem typesAt_cons (occasion : Occasion) (e : Event) (events : List Event) :
    typesAt occasion (e :: events) =
      if e.occasion = occasion then e.type :: typesAt occasion events
      else typesAt occasion events := by
  unfold typesAt
  rw [List.filterMap_cons]
  split <;> simp_all

@[simp] theorem typesAt_append (occasion : Occasion) (events events' : List Event) :
    typesAt occasion (events ++ events') = typesAt occasion events ++ typesAt occasion events' :=
  List.filterMap_append

/-- A list of events is made of the events of each kind. -/
theorem perm_typesAt (events : List Event) :
    events.Perm ((typesAt .cacheMiss events).map (⟨.cacheMiss, ·⟩) ++
      (typesAt .cacheStore events).map (⟨.cacheStore, ·⟩) ++
      (typesAt .cacheHit events).map (⟨.cacheHit, ·⟩) ++
      (typesAt .coreUnknown events).map (⟨.coreUnknown, ·⟩) ++
      (typesAt .coreHit events).map (⟨.coreHit, ·⟩)) := by
  rw [List.perm_iff_count]
  intro e
  induction events with
  | nil => rfl
  | cons first events ih =>
    obtain ⟨occasion, t⟩ := first
    cases occasion <;>
      simp only [List.count_append, typesAt_cons, List.count_cons, reduceCtorEq, if_true, if_false,
        List.map_cons] at ih ⊢ <;> omega

/-! ## 2. What the memo adds up to -/

/-- The memo came from `memo₀` by the accesses that the events tell of. -/
structure Accounts (memo₀ memo : Memo) (heard : List Event) : Prop where
  has : ∀ t, memo.Has t ↔ memo₀.Has t ∨ t ∈ typesAt .cacheStore heard
  hits : memo.hits = memo₀.hits + (typesAt .cacheHit heard).length
  misses : memo.misses = memo₀.misses + (typesAt .cacheMiss heard).length
  stores : memo.stores = memo₀.stores + (typesAt .cacheStore heard).length
  size : memo.size = memo₀.size + (typesAt .cacheStore heard).length

variable {memo₀ memo : Memo} {heard : List Event} {t : TypeName} {set : TypeSet}

theorem Accounts.refl (memo : Memo) : Accounts memo memo [] :=
  ⟨fun t => by simp, rfl, rfl, rfl, rfl⟩

/-- An event that is not one of the memo's own changes nothing. -/
theorem Accounts.other (h : Accounts memo₀ memo heard) {new : List Event}
    (hnew : ∀ e ∈ new, e.occasion = .coreHit ∨ e.occasion = .coreUnknown) :
    Accounts memo₀ memo (new ++ heard) := by
  have hnone : ∀ occasion, occasion ≠ .coreHit → occasion ≠ .coreUnknown →
      typesAt occasion (new ++ heard) = typesAt occasion heard := by
    intro occasion hhit hunknown
    have hnil : typesAt occasion new = [] := by
      refine List.filterMap_eq_nil_iff.mpr fun e he => if_neg ?_
      rintro rfl
      exact (hnew e he).elim hhit hunknown
    rw [typesAt_append, hnil, List.nil_append]
  obtain ⟨hhas, hhits, hmisses, hstores, hsize⟩ := h
  rw [← hnone .cacheHit (by simp) (by simp)] at hhits
  rw [← hnone .cacheMiss (by simp) (by simp)] at hmisses
  rw [← hnone .cacheStore (by simp) (by simp)] at hstores hsize
  refine ⟨fun t => ?_, hhits, hmisses, hstores, hsize⟩
  rw [hnone .cacheStore (by simp) (by simp)]
  exact hhas t

theorem Accounts.hit (h : Accounts memo₀ memo heard) (ht : memo.peek? t = some set) :
    Accounts memo₀ (memo.get t).2 (⟨.cacheHit, t⟩ :: heard) := by
  rw [Memo.get_of_some ht]
  exact ⟨h.has, congrArg (· + 1) h.hits, h.misses, h.stores, h.size⟩

theorem Accounts.miss (h : Accounts memo₀ memo heard) (ht : memo.peek? t = none) :
    Accounts memo₀ (memo.get t).2 (⟨.cacheMiss, t⟩ :: heard) := by
  rw [Memo.get_of_none ht]
  exact ⟨h.has, h.hits, congrArg (· + 1) h.misses, h.stores, h.size⟩

/-- A set that is stored for a new type is counted, and the memo has one type more. -/
theorem Accounts.store (h : Accounts memo₀ memo heard) (ht : ¬ memo.Has t) :
    Accounts memo₀ (memo.store t set) (⟨.cacheStore, t⟩ :: heard) := by
  refine ⟨fun u => ?_, ?_, ?_, ?_, ?_⟩
  · rw [Memo.has_store_iff, h.has u, typesAt_cons, if_pos rfl, List.mem_cons, or_assoc,
      or_comm (a := u = t)]
  · simpa [Memo.store] using h.hits
  · simpa [Memo.store] using h.misses
  · simp [Memo.store, h.stores, Nat.add_assoc]
  · rw [Memo.size_store_of_not_has ht, h.size]
    simp [Nat.add_assoc]

/-! ## 3. The ledger -/

namespace Scene

variable {σ : Type} {layer : Layer} {known : TypeName → TypeSet} {question : Question}
  {core : Core σ} {valid : σ → Prop} {before : List TypeName} {start : TypeName}
  {opened : List TypeName} {s s' final : Scene σ} {n : Nat}

/-- The walk from `start` has opened the types `opened`, and these account for all that has happened
since the memo was `memo₀` and the core registry had been asked about the types `before`. -/
structure Ledger (layer : Layer) (known : TypeName → TypeSet) (memo₀ : Memo)
    (before : List TypeName) (start : TypeName) (opened : List TypeName) (s : Scene σ) : Prop where
  walking : s.query.Walking
  nodup : opened.Nodup
  order : ∀ t, t ∈ s.query.walk.order ↔ t ∈ opened
  reached : ∀ t ∈ opened, (layer.hierarchy known memo₀.peek?).Reaches start t ∧
    memo₀.peek? t = none
  misses : (typesAt .cacheMiss s.heard).Perm (s.query.coming ++ opened)
  stores : (typesAt .cacheStore s.heard ++ s.query.unstored).Perm opened
  hits : (typesAt .cacheHit s.heard ++ s.query.due memo₀.peek?).Perm
    (opened.flatMap (layer.hierarchy known memo₀.peek?).ready)
  unknown : (typesAt .coreUnknown s.heard).Perm (opened.filter (layer.unknown known))
  coreHits : typesAt .coreHit s.heard = []
  asked : s.asked.Perm (opened.filter layer.consults ++ before)
  memo : Accounts memo₀ s.memo s.heard
  closed : ∀ t ∈ typesAt .cacheStore s.heard,
    ∀ u ∈ (layer.hierarchy known memo₀.peek?).above t, s.memo.Has u ∨ u ∈ s.query.owed

/-- What is done and what is due make up a total.  When a step does `new` and `more` falls due, they
make up a total with `more` in it. -/
theorem perm_settle {done new due due' more total : List TypeName}
    (hstep : (new ++ due').Perm (more ++ due)) (htotal : (done ++ due).Perm total) :
    (new ++ (done ++ due')).Perm (more ++ total) :=
  calc new ++ (done ++ due')
      ~ done ++ (new ++ due') := List.perm_append_comm_assoc ..
    _ ~ done ++ (more ++ due) := hstep.append_left _
    _ ~ more ++ (done ++ due) := List.perm_append_comm_assoc ..
    _ ~ more ++ total := htotal.append_left _

/-- What stored types list stays in the memo, or is still owed to it. -/
theorem Ledger.closed_goes {opens meets misses stores : List TypeName}
    (h : s.Ledger layer known memo₀ before start opened)
    (hgoes : s.query.Goes (layer.hierarchy known memo₀.peek?) start s'.query opens meets misses
      stores)
    (hstores : typesAt .cacheStore s'.heard = stores ++ typesAt .cacheStore s.heard)
    (hmemo : Accounts memo₀ s'.memo s'.heard)
    (hclosed : ∀ t ∈ stores, ∀ u ∈ (layer.hierarchy known memo₀.peek?).above t,
      s'.memo.Has u ∨ u ∈ s'.query.owed) :
    ∀ t ∈ typesAt .cacheStore s'.heard, ∀ u ∈ (layer.hierarchy known memo₀.peek?).above t,
      s'.memo.Has u ∨ u ∈ s'.query.owed := by
  have hhas : ∀ v, v ∈ stores ∨ s.memo.Has v → s'.memo.Has v := by
    intro v hv
    rw [hmemo.has, hstores, List.mem_append]
    rcases hv with hv | hv
    · exact .inr (.inl hv)
    · exact ((h.memo.has v).mp hv).imp_right .inr
  intro t ht u hu
  rw [hstores] at ht
  rcases List.mem_append.mp ht with ht | ht
  · exact hclosed t ht u hu
  · rcases h.closed t ht u hu with hu | hu
    · exact .inl (hhas u (.inr hu))
    · exact (hgoes.owed u hu).imp_left fun hu => hhas u (.inl hu)

/-- The ledger is kept when what is entered in the books is what is heard of. -/
theorem Ledger.goes {opens meets misses stores : List TypeName}
    (h : s.Ledger layer known memo₀ before start opened) (new : List Event)
    (hgoes : s.query.Goes (layer.hierarchy known memo₀.peek?) start s'.query opens meets misses
      stores)
    (hheard : s'.heard = new ++ s.heard) (hmisses : typesAt .cacheMiss new = misses)
    (hstores : typesAt .cacheStore new = stores) (hmeets : typesAt .cacheHit new = meets)
    (hunknown : typesAt .coreUnknown new = opens.filter (layer.unknown known))
    (hcore : typesAt .coreHit new = [])
    (hasked : s'.asked = opens.filter layer.consults ++ s.asked)
    (hmemo : Accounts memo₀ s'.memo s'.heard)
    (hclosed : ∀ t ∈ stores, ∀ u ∈ (layer.hierarchy known memo₀.peek?).above t,
      s'.memo.Has u ∨ u ∈ s'.query.owed) :
    s'.Ledger layer known memo₀ before start (opens ++ opened) := by
  have hstores' : typesAt .cacheStore s'.heard = stores ++ typesAt .cacheStore s.heard := by
    rw [hheard, typesAt_append, hstores]
  refine ⟨hgoes.walking, ?_, ?_, ?_, ?_, ?_, ?_, ?_, ?_, ?_, hmemo,
    h.closed_goes hgoes hstores' hmemo hclosed⟩
  · refine List.nodup_append.mpr ⟨hgoes.fresh.2, h.nodup, fun t ht u hu he => ?_⟩
    exact hgoes.fresh.1 t ht ((h.order t).mpr (he ▸ hu))
  · intro t
    rw [hgoes.order, h.order, List.mem_append]
  · intro t ht
    exact (List.mem_append.mp ht).elim (hgoes.reached t) (h.reached t)
  · rw [hheard, typesAt_append, hmisses]
    calc misses ++ typesAt .cacheMiss s.heard
        ~ misses ++ (s.query.coming ++ opened) := h.misses.append_left _
      _ = misses ++ s.query.coming ++ opened := (List.append_assoc ..).symm
      _ ~ s'.query.coming ++ opens ++ opened := hgoes.coming.symm.append_right _
      _ = s'.query.coming ++ (opens ++ opened) := List.append_assoc ..
  · rw [hstores', List.append_assoc]
    exact perm_settle hgoes.unstored h.stores
  · rw [hheard, typesAt_append, hmeets, List.append_assoc, List.flatMap_append]
    exact perm_settle hgoes.due h.hits
  · rw [hheard, typesAt_append, hunknown, List.filter_append]
    exact h.unknown.append_left _
  · rw [hheard, typesAt_append, hcore, h.coreHits]
    rfl
  · rw [hasked, List.filter_append, List.append_assoc]
    exact h.asked.append_left _

/-- A type that the walk has not opened is in the memo from before, if it is there: what the walk
has stored, it has opened. -/
theorem Ledger.given_of_has (h : s.Ledger layer known memo₀ before start opened)
    (hfresh : t ∉ s.query.walk.order) (hhas : s.memo.Has t) : memo₀.peek? t ≠ none := by
  rcases (h.memo.has t).mp hhas with ⟨v, hv⟩ | ht
  · rw [hv]
    simp
  · refine absurd ((h.order t).mpr ?_) hfresh
    exact h.stores.mem_iff.mp (List.mem_append_left _ ht)

/-- A type is stored once, so the memo does not have it while it has yet to be stored. -/
theorem Ledger.not_has_of_unstored (h : s.Ledger layer known memo₀ before start opened)
    {unstored : List TypeName} (hunstored : s.query.unstored.Perm (t :: unstored)) :
    ¬ s.memo.Has t := by
  have hperm := (hunstored.append_left (typesAt .cacheStore s.heard)).symm.trans h.stores
  have hnodup := hperm.nodup_iff.mpr h.nodup
  rw [List.nodup_append] at hnodup
  have hopened : t ∈ opened := hperm.mem_iff.mp (by simp)
  rw [h.memo.has]
  rintro (⟨v, hv⟩ | ht)
  · exact absurd (hv.symm.trans (h.reached t hopened).2) (by simp)
  · exact hnodup.2.2 t ht t (by simp) rfl

/-- What a walk opens without a question to the core registry is no concern of that registry. -/
theorem Ledger.goes_silent {opens : List TypeName} {q : Query}
    (h : s.Ledger layer known memo₀ before start opened)
    (hopens : ∀ t ∈ opens, layer.consults t = false)
    (hgoes : s.query.Goes (layer.hierarchy known memo₀.peek?) start q opens [] [] []) :
    Ledger layer known memo₀ before start (opens ++ opened) { s with query := q } := by
  have hnone : opens.filter layer.consults = [] ∧ opens.filter (layer.unknown known) = [] := by
    constructor <;> refine List.filter_eq_nil_iff.mpr fun t ht => ?_
    · simp [hopens t ht]
    · simp [Layer.unknown, hopens t ht]
  refine h.goes [] hgoes rfl rfl rfl rfl hnone.2.symm rfl ?_ h.memo
    fun t ht => absurd ht List.not_mem_nil
  rw [hnone.1]
  rfl

/-- **Every move of a walk is accounted for.** -/
theorem Ledger.moves (hcore : core.Settled valid known)
    (hgood : s.Good layer known memo₀.peek? valid question)
    (hstart : question.Seeks layer known start)
    (h : s.Ledger layer known memo₀ before start opened) (hmove : s.Moves layer core s') :
    ∃ opened', s'.Ledger layer known memo₀ before start opened' := by
  have hbooks := step_books hgood.query h.walking hstart
  have hstep := step_good hgood.query
  cases hmove with
  | silent hq =>
    rw [hq] at hbooks
    obtain ⟨opens, hopens, hgoes⟩ := hbooks
    exact ⟨opens ++ opened, h.goes_silent hopens hgoes⟩
  | @core t next set hq hanswer =>
    rw [hq] at hbooks
    obtain ⟨hconsults, hevent, hgoes⟩ := hbooks
    cases (hcore t s.core hgood.core).1.symm.trans hanswer
    have hnew : ∀ e ∈ ((next (known t)).2.map (Event.mk · t)).toList,
        e.occasion = .coreHit ∨ e.occasion = .coreUnknown := by
      rw [hevent]
      intro e he
      split at he
      · exact .inr (List.mem_singleton.mp he ▸ rfl)
      · exact absurd he List.not_mem_nil
    refine ⟨[t] ++ opened, h.goes _ hgoes rfl ?_ ?_ ?_ ?_ ?_ ?_ (h.memo.other hnew)
      (fun u hu => absurd hu List.not_mem_nil)⟩
    all_goals try rw [hevent]
    · split <;> rfl
    · split <;> rfl
    · split <;> rfl
    · cases hk : (known t).isEmpty <;> simp [Layer.unknown, hconsults, hk]
    · split <;> rfl
    · simp [hconsults]
  | @hit t found miss set hq hset =>
    rw [hq] at hbooks
    obtain ⟨hfresh, hhit, _⟩ := hbooks
    have hgoes := hhit set (h.given_of_has hfresh ⟨set, hset⟩)
    exact ⟨_, h.goes [⟨.cacheHit, t⟩] hgoes rfl rfl rfl rfl rfl rfl rfl (h.memo.hit hset)
      (fun u hu => absurd hu List.not_mem_nil)⟩
  | @miss t found miss hq hset =>
    rw [hq] at hbooks
    exact ⟨_, h.goes [⟨.cacheMiss, t⟩] (hbooks.2.2 (hgood.given_eq_none hset)) rfl rfl rfl
      rfl rfl rfl rfl (h.memo.miss hset) (fun u hu => absurd hu List.not_mem_nil)⟩
  | @store t set q hq =>
    rw [hq] at hbooks hstep
    obtain ⟨hset, _, habove, _⟩ := hstep
    have hunstored : s.query.unstored.Perm (t :: q.unstored) := hbooks.unstored.symm
    have hnot := h.not_has_of_unstored hunstored
    refine ⟨_, h.goes [⟨.cacheStore, t⟩] hbooks rfl rfl rfl rfl rfl rfl rfl
      (h.memo.store hnot) fun v hv u hu => ?_⟩
    cases List.mem_singleton.mp hv
    rcases habove u hu with hu | rfl | hu
    · exact .inl ((hgood.memo.grows_store hset).has u hu)
    · exact .inl Memo.has_store
    · exact .inr hu

/-! ## 4. The end of a walk -/

/-- A walk that begins has opened nothing, and everything is still to come. -/
theorem ledger_atEntry {state : σ} (hstart : memo.peek? start = none) :
    (atEntry start memo state before).Ledger layer known memo before start [] := by
  refine ⟨trivial, .nil, fun t => ?_, fun t ht => absurd ht List.not_mem_nil, .refl _, .refl _,
    .refl _, .refl _, rfl, .refl _, (Accounts.refl memo).miss hstart,
    fun t ht => absurd ht List.not_mem_nil⟩
  simp [atEntry, Walk.empty]

/-- **A walk opens what it reaches** without passing through a type of the memo. -/
theorem Ledger.opened_iff (h : s.Ledger layer known memo₀ before start opened)
    (hgood : s.Good layer known memo₀.peek? valid question)
    (hstart : question.Seeks layer known start) (hnew : memo₀.peek? start = none)
    (hanswer : layer.step s.query = .answer set) (t : TypeName) :
    t ∈ opened ↔ (layer.hierarchy known memo₀.peek?).Reaches start t ∧ memo₀.peek? t = none := by
  have hbooks := step_books hgood.query h.walking hstart
  have hstep := step_good hgood.query
  rw [hanswer] at hbooks hstep
  obtain ⟨_, hunstored, _⟩ := hbooks
  have hstores := h.stores
  rw [hunstored, List.append_nil] at hstores
  have howed : s.query.owed = [] := by
    cases hphase : s.query.phase <;> simp_all [Query.owed, Query.unstored]
  have hopened : ∀ u, s.memo.Has u → memo₀.peek? u = none → u ∈ opened := by
    intro u hu hnone
    rcases (h.memo.has u).mp hu with ⟨v, hv⟩ | hu
    · exact absurd (hv.symm.trans hnone) (by simp)
    · exact hstores.mem_iff.mp hu
  refine ⟨h.reached t, ?_⟩
  rintro ⟨hreach, hnone⟩
  induction hreach with
  | refl => exact hopened start (hstep.2 start hstart) hnew
  | tail _ hlead ih =>
    have hu := hstores.mem_iff.mpr (ih hlead.1)
    rcases h.closed _ hu _ hlead.2 with hs | hs
    · exact hopened _ hs hnone
    · rw [howed] at hs
      exact absurd hs List.not_mem_nil

end Scene

/-- What a query for the ancestors of a type comes to: the answer, the memo that it leaves, the
names about which it has asked the core registry and the events that were heard of.  Both lists
have the last one in front. -/
structure Account where
  set : TypeSet
  memo : Memo
  asked : List TypeName
  heard : List Event

/-- The account of a walk that opened the types `opened`, where the memo was `memo` before and the
core registry had been asked about `before`.  Each of the types was missed once and stored once, and
each of their direct supertypes that was in the memo was found there once. -/
structure Account.OfWalk (layer : Layer) (known : TypeName → TypeSet) (memo : Memo)
    (before opened : List TypeName) (account : Account) : Prop where
  heard : account.heard.Perm
    (opened.map (⟨.cacheMiss, ·⟩) ++ opened.map (⟨.cacheStore, ·⟩) ++
      (opened.flatMap (layer.hierarchy known memo.peek?).ready).map (⟨.cacheHit, ·⟩) ++
      (opened.filter (layer.unknown known)).map (⟨.coreUnknown, ·⟩))
  asked : account.asked.Perm (opened.filter layer.consults ++ before)
  has : ∀ t, account.memo.Has t ↔ memo.Has t ∨ t ∈ opened
  misses : account.memo.misses = memo.misses + opened.length
  stores : account.memo.stores = memo.stores + opened.length
  size : account.memo.size = memo.size + opened.length
  hits : account.memo.hits =
    memo.hits + (opened.flatMap (layer.hierarchy known memo.peek?).ready).length

variable {layer : Layer} {known : TypeName → TypeSet} {before opened opened' : List TypeName}
  {account : Account}

/-- In which order the types are opened makes no difference to what they account for. -/
theorem Account.OfWalk.perm (h : account.OfWalk layer known memo before opened)
    (hperm : opened.Perm opened') : account.OfWalk layer known memo before opened' := by
  have hready := hperm.flatMap_right (layer.hierarchy known memo.peek?).ready
  refine ⟨?_, ?_, fun t => ?_, ?_, ?_, ?_, ?_⟩
  · refine h.heard.trans ?_
    exact (((hperm.map _).append (hperm.map _)).append (hready.map _)).append
      ((hperm.filter _).map _)
  · exact h.asked.trans ((hperm.filter _).append_right _)
  · rw [h.has, hperm.mem_iff]
  · rw [h.misses, hperm.length_eq]
  · rw [h.stores, hperm.length_eq]
  · rw [h.size, hperm.length_eq]
  · rw [h.hits, hready.length_eq]

/-- **What a walk from a type that is not in the memo adds up to**: the types that it opens are
those it reaches without passing through a type of the memo, and they account for every event, for
every question to the core registry and for the counters of the memo. -/
theorem walk_accounts {σ : Type} {core : Core σ} {valid : σ → Prop} {question : Question} {n : Nat}
    {final : Scene σ} {start : TypeName} {state : σ} (hcore : core.Settled valid known)
    (hstate : valid state) (hstart : question.Seeks layer known start)
    (hnew : memo₀.peek? start = none)
    (hends : (Scene.atEntry start memo₀ state before).Ends layer core n set final) :
    ∃ opened : List TypeName, opened.Nodup ∧
      (∀ t, t ∈ opened ↔
        (layer.hierarchy known memo₀.peek?).Reaches start t ∧ memo₀.peek? t = none) ∧
      Account.OfWalk layer known memo₀ before opened
        ⟨set, final.memo, final.asked, final.heard⟩ := by
  have hkeeps := hends.keeps
    (P := fun s => s.Good layer known memo₀.peek? valid question ∧
      ∃ opened, s.Ledger layer known memo₀ before start opened)
    (fun s s' ⟨hs, opened, hledger⟩ hmove =>
      ⟨hs.moves hcore hmove, hledger.moves hcore hs hstart hmove⟩)
    ⟨Scene.good_atEntry hstate hstart hnew, [], Scene.ledger_atEntry hnew⟩
  obtain ⟨⟨hfinal, opened, hledger⟩, hanswer⟩ := hkeeps
  have hbooks := step_books hfinal.query hledger.walking hstart
  rw [hanswer] at hbooks
  -- Nothing is outstanding any more.
  obtain ⟨hcoming, hunstored, hdue⟩ := hbooks
  have hmisses := hledger.misses
  have hstores := hledger.stores
  have hhits := hledger.hits
  rw [hcoming, List.nil_append] at hmisses
  rw [hunstored, List.append_nil] at hstores
  rw [hdue, List.append_nil] at hhits
  have hperm := perm_typesAt final.heard
  rw [hledger.coreHits, List.map_nil, List.append_nil] at hperm
  refine ⟨opened, hledger.nodup, hledger.opened_iff hfinal hstart hnew hanswer, ?_, hledger.asked,
    fun t => ?_, ?_, ?_, ?_, ?_⟩
  · exact hperm.trans ((((hmisses.map _).append (hstores.map _)).append (hhits.map _)).append
      (hledger.unknown.map _))
  · rw [hledger.memo.has, hstores.mem_iff]
  · rw [hledger.memo.misses, hmisses.length_eq]
  · rw [hledger.memo.stores, hstores.length_eq]
  · rw [hledger.memo.size, hstores.length_eq]
  · rw [hledger.memo.hits, hhits.length_eq]

end Ancestry.Closure
