import Mathlib.Data.List.Nodup
import Mathlib.Data.List.Induction
import Ancestry.Document.Shape
import Ancestry.Proofs.Json.Tree

/-!
# The complaints about a document

A check goes through an object entry by entry and through an array item by item, and does not stop
where it finds something wrong.  So there is a complaint about every value that is no array and
about every item that is no text (`mem_checkEntries`).  They come in the order of the entries and,
for each of them, of the items: the order is that of the places (`Place.Before`) where the keys
ascend.

A check also has to do with bytes, tuples and sets, which no document has: what is read is a tree
over scalars.
-/

namespace Ancestry.Document

open Json (Tree IsScalar canonical textEntries)

/-- One place within an object comes before another one: its key is smaller, or its key is the same
and its index is smaller. -/
inductive Place.Before (object : List Place) : List Place → List Place → Prop
  | key {key key' : String} (hkey : key < key') (rest rest' : List Place) :
    Before object (object ++ .name key :: rest) (object ++ .name key' :: rest')
  | index {key : String} {n n' : Nat} (hindex : n < n') :
    Before object (object ++ [.name key, .index n]) (object ++ [.name key, .index n'])

theorem Place.Before.ne {object p p' : List Place} (h : Place.Before object p p') : p ≠ p' := by
  cases h with
  | @key key key' hkey rest rest' =>
    intro heq
    have hsame : key = key' := by simpa using And.left (List.cons.inj (List.append_cancel_left heq))
    exact String.lt_irrefl key (hsame ▸ hkey)
  | @index key n n' hindex =>
    intro heq
    have hsame : (n : Int) = n' := by simpa using heq
    omega

theorem Place.Before.asymm {object p p' : List Place} (h : Place.Before object p p') :
    ¬ Place.Before object p' p := by
  intro h'
  cases h with
  | @key key key' hkey rest rest' =>
    generalize hp : object ++ .name key :: rest = p at h'
    generalize hp' : object ++ .name key' :: rest' = p' at h'
    cases h' with
    | key hkey' _ _ =>
      obtain ⟨rfl, _⟩ : key = _ ∧ _ := by simpa using hp
      obtain ⟨rfl, _⟩ : key' = _ ∧ _ := by simpa using hp'
      exact String.lt_asymm hkey hkey'
    | index _ =>
      obtain ⟨rfl, _⟩ : key = _ ∧ _ := by simpa using hp
      obtain ⟨rfl, _⟩ : key' = _ ∧ _ := by simpa using hp'
      exact String.lt_irrefl _ hkey
  | @index key n n' hindex =>
    generalize hp : object ++ [.name key, .index n] = p at h'
    generalize hp' : object ++ [.name key, .index n'] = p' at h'
    cases h' with
    | key hkey' _ _ =>
      obtain ⟨rfl, _⟩ : key = _ ∧ _ := by simpa using hp
      obtain ⟨rfl, _⟩ : key = _ ∧ _ := by simpa using hp'
      exact String.lt_irrefl _ hkey'
    | @index _ i i' hindex' =>
      obtain ⟨_, hn⟩ : key = _ ∧ (n : Int) = i' := by simpa using hp
      obtain ⟨_, hn'⟩ : key = _ ∧ (n' : Int) = i := by simpa using hp'
      omega

variable {place : List Place} {x v : Value} {xs : List Value} {es : List (String × Value)}
  {c : Complaint}

/-! ## 1. The items of an array -/

/-- A value of a document is a text or is taken for none. -/
theorem checkText_of_tree (h : Tree IsScalar x) :
    (∃ s, x = .text s) ∨ (∀ s, x ≠ .text s) ∧ checkText x = .error .notText := by
  cases h with
  | leaf h =>
    cases x with
    | text s => exact .inl ⟨s, rfl⟩
    | null => exact .inr ⟨by simp, rfl⟩
    | bool b => exact .inr ⟨by simp, rfl⟩
    | int n => exact .inr ⟨by simp, rfl⟩
    | float y => exact .inr ⟨by simp, rfl⟩
    | _ => exact h.elim
  | list _ => exact .inr ⟨by simp, rfl⟩
  | map _ _ => exact .inr ⟨by simp, rfl⟩

/-- A value of a document is an array or is taken for none. -/
theorem items?_of_tree (h : Tree IsScalar v) :
    (∃ xs, v = .list xs) ∨ (∀ xs, v ≠ .list xs) ∧ items? v = none := by
  cases h with
  | leaf h =>
    cases v with
    | null => exact .inr ⟨by simp, rfl⟩
    | bool b => exact .inr ⟨by simp, rfl⟩
    | int n => exact .inr ⟨by simp, rfl⟩
    | float y => exact .inr ⟨by simp, rfl⟩
    | text s => exact .inr ⟨by simp, rfl⟩
    | _ => exact h.elim
  | list _ => exact .inl ⟨_, rfl⟩
  | map _ _ => exact .inr ⟨by simp, rfl⟩

/-- **There is a complaint about every item that is no text.** -/
theorem mem_checkItems (hxs : ∀ x ∈ xs, Tree IsScalar x) : ∀ n,
    c ∈ (checkItems place n xs).complaints ↔ ∃ i x, xs[i]? = some x ∧ (∀ s, x ≠ .text s) ∧
      c = ⟨.notText, place ++ [.index (n + i : Nat)]⟩ := by
  induction xs with
  | nil => simp [checkItems]
  | cons x xs ih =>
    intro n
    obtain ⟨hx, hxs⟩ := List.forall_mem_cons.mp hxs
    have hrest : (∃ i y, (x :: xs)[i + 1]? = some y ∧ (∀ s, y ≠ .text s) ∧
        c = ⟨.notText, place ++ [.index (n + (i + 1) : Nat)]⟩) ↔
          c ∈ (checkItems place (n + 1) xs).complaints := by
      rw [ih hxs (n + 1)]
      simp only [List.getElem?_cons_succ, Nat.add_right_comm n 1, Nat.add_assoc]
    rw [← Nat.or_exists_add_one, hrest]
    rcases checkText_of_tree hx with ⟨s, rfl⟩ | ⟨htext, hcheck⟩
    · simp [checkItems, checkText]
    · simp [checkItems, hcheck, htext]

/-- The complaints about items come in the order of the items. -/
theorem ordered_checkItems (place : List Place) (xs : List Value) : ∀ n,
    (checkItems place n xs).complaints.Pairwise fun c c' => ∃ i j : Nat, i < j ∧
      c.place = place ++ [.index i] ∧ c'.place = place ++ [.index j] := by
  have hfrom : ∀ (xs : List Value) (n : Nat), ∀ c ∈ (checkItems place n xs).complaints,
      ∃ i : Nat, n ≤ i ∧ c.place = place ++ [.index i] := by
    intro xs
    induction xs with
    | nil => exact fun _ c hc => absurd hc List.not_mem_nil
    | cons x xs ih =>
      intro n c hc
      rw [checkItems] at hc
      split at hc
      · obtain ⟨i, hi, hplace⟩ := ih (n + 1) c hc
        exact ⟨i, Nat.le_of_succ_le hi, hplace⟩
      · rcases List.mem_cons.mp hc with rfl | hc
        · exact ⟨n, Nat.le_refl n, rfl⟩
        · obtain ⟨i, hi, hplace⟩ := ih (n + 1) c hc
          exact ⟨i, Nat.le_of_succ_le hi, hplace⟩
  induction xs with
  | nil => exact fun _ => .nil
  | cons x xs ih =>
    intro n
    rw [checkItems]
    split
    · exact ih (n + 1)
    · refine List.pairwise_cons.mpr ⟨fun c hc => ?_, ih (n + 1)⟩
      obtain ⟨i, hi, hplace⟩ := hfrom xs (n + 1) c hc
      exact ⟨n, i, hi, rfl, hplace⟩

/-! ## 2. Arrays -/

theorem mem_checkArray (h : Tree IsScalar v) : c ∈ (checkArray place v).complaints ↔
    (∀ xs, v ≠ .list xs) ∧ c = ⟨.notArray, place⟩ ∨ ∃ (xs : List Value) (n : Nat) (x : Value),
      v = .list xs ∧ xs[n]? = some x ∧ (∀ s, x ≠ .text s) ∧
        c = ⟨.notText, place ++ [.index n]⟩ := by
  rcases items?_of_tree h with ⟨xs, rfl⟩ | ⟨hv, hitems⟩
  · have hxs : ∀ x ∈ xs, Tree IsScalar x := by
      cases h with
      | leaf h => exact h.elim
      | list hxs => exact hxs
    rw [checkArray, items?, mem_checkItems hxs 0]
    simp
  · simp [checkArray, hitems, hv]

/-- The complaints about a value are about the place where it stands, or about places in it. -/
theorem prefix_of_mem_checkArray (h : Tree IsScalar v)
    (hc : c ∈ (checkArray place v).complaints) : place <+: c.place := by
  rcases (mem_checkArray h).mp hc with ⟨_, rfl⟩ | ⟨_, _, _, _, _, _, rfl⟩
  · exact List.prefix_rfl
  · exact List.prefix_append _ _

theorem ordered_checkArray (place : List Place) (key : String) (v : Value) :
    (checkArray (place ++ [.name key]) v).complaints.Pairwise fun c c' =>
      Place.Before place c.place c'.place := by
  rw [checkArray]
  split
  · refine (ordered_checkItems _ _ 0).imp ?_
    rintro c c' ⟨i, j, hij, hc, hc'⟩
    rw [hc, hc', List.append_assoc, List.append_assoc]
    exact .index hij
  · exact List.pairwise_singleton _ _

/-! ## 3. Objects -/

theorem complaints_checkEntries (place : List Place) (es : List (String × Value)) :
    (checkEntries place (textEntries es)).complaints =
      es.flatMap fun e => (checkArray (place ++ [.name e.1]) e.2).complaints := by
  induction es using List.reverseRecOn with
  | nil => rfl
  | append_singleton es e ih =>
    rw [textEntries, List.map_append, ← textEntries, checkEntries, List.foldl_append,
      ← checkEntries, List.flatMap_append, ← ih]
    simp [checkText, Place.ofKey, Value.text?]

/-- **There is a complaint about every value that is no array, and about every item of an array that
is no text.** -/
theorem mem_checkEntries (hes : ∀ e ∈ es, Tree IsScalar e.2) :
    c ∈ (checkEntries place (textEntries es)).complaints ↔ ∃ e ∈ es,
      (∀ xs, e.2 ≠ .list xs) ∧ c = ⟨.notArray, place ++ [.name e.1]⟩ ∨
        ∃ (xs : List Value) (n : Nat) (x : Value), e.2 = .list xs ∧ xs[n]? = some x ∧
          (∀ s, x ≠ .text s) ∧ c = ⟨.notText, place ++ [.name e.1, .index n]⟩ := by
  rw [complaints_checkEntries, List.mem_flatMap]
  refine exists_congr fun e => and_congr_right fun he => (mem_checkArray (hes e he)).trans ?_
  simp only [List.append_assoc, List.cons_append, List.nil_append]

/-- The complaints about an object whose keys ascend come in the order of the places. -/
theorem ordered_checkEntries (hkeys : Ascending (es.map (·.1)))
    (hes : ∀ e ∈ es, Tree IsScalar e.2) (place : List Place) :
    (checkEntries place (textEntries es)).complaints.Pairwise fun c c' =>
      Place.Before place c.place c'.place := by
  rw [complaints_checkEntries, List.pairwise_flatMap]
  refine ⟨fun e _ => ordered_checkArray place e.1 e.2, ?_⟩
  refine (List.pairwise_map.mp hkeys).imp_of_mem fun {e e'} he he' hlt c hc c' hc' => ?_
  obtain ⟨rest, hrest⟩ := prefix_of_mem_checkArray (hes e he) hc
  obtain ⟨rest', hrest'⟩ := prefix_of_mem_checkArray (hes e' he') hc'
  rw [← hrest, ← hrest', List.append_assoc, List.append_assoc]
  exact .key hlt rest rest'

/-! ## 4. Canonical values -/

/-- A value is a text or none, whether it is in canonical form or not. -/
theorem checkText_canonical (x : Value) : checkText (canonical x) = checkText x := by
  cases x <;> rfl

theorem checkItems_canonical (place : List Place) (xs : List Value) : ∀ n,
    checkItems place n (Json.canonicalItems xs) = checkItems place n xs := by
  induction xs with
  | nil => exact fun _ => rfl
  | cons x xs ih =>
    intro n
    rw [Json.canonicalItems, checkItems, checkItems, checkText_canonical, ih]

/-- **There is as much wrong with a canonical value as with the value itself.** -/
theorem checkArray_canonical (place : List Place) (v : Value) :
    checkArray place (canonical v) = checkArray place v := by
  cases v with
  | list xs => exact checkItems_canonical place xs 0
  | _ => rfl

end Ancestry.Document
