import Mathlib

/-!
# Worklists

Every worker owns a list of items and takes them from the front.  With no item
listed twice and every item on its owner's list, taking the front item of one
list removes exactly that item from what remains.
-/

set_option autoImplicit false

namespace TpccRunner.Lib.Worklist

universe u v

variable {ω : Type u} {Item : Type v}

structure Proper (owner : Item → ω) (todo : ω → List Item) : Prop where
  owned : ∀ worker, ∀ item ∈ todo worker, owner item = worker
  nodup : ∀ worker, (todo worker).Nodup

def Remains (todo : ω → List Item) (item : Item) : Prop := ∃ worker, item ∈ todo worker

variable {owner : Item → ω} {todo : ω → List Item} {worker : ω} {item : Item} {rest : List Item}

theorem remains_head (front : todo worker = item :: rest) : Remains todo item :=
  ⟨worker, by simp [front]⟩

theorem not_remains_of_empty (empty : ∀ worker, todo worker = []) (item : Item) :
    ¬ Remains todo item := by
  rintro ⟨worker, member⟩
  simp [empty worker] at member

namespace Proper

theorem remains_iff (proper : Proper owner todo) {other : Item} :
    Remains todo other ↔ other ∈ todo (owner other) := by
  constructor
  · rintro ⟨worker, member⟩
    rwa [proper.owned worker other member]
  · exact fun member => ⟨_, member⟩

variable [DecidableEq ω]

theorem pop (proper : Proper owner todo) (front : todo worker = item :: rest) :
    Proper owner (Function.update todo worker rest) := by
  have nodup := proper.nodup worker
  rw [front] at nodup
  constructor
  · intro other entry member
    by_cases same : other = worker
    · subst same
      rw [Function.update_self] at member
      exact proper.owned other entry (by simp [front, member])
    · rw [Function.update_of_ne same] at member
      exact proper.owned other entry member
  · intro other
    by_cases same : other = worker
    · subst same
      rw [Function.update_self]
      exact (List.nodup_cons.mp nodup).2
    · rw [Function.update_of_ne same]
      exact proper.nodup other

theorem remains_pop (proper : Proper owner todo) (front : todo worker = item :: rest)
    {other : Item} :
    Remains (Function.update todo worker rest) other ↔ Remains todo other ∧ other ≠ item := by
  have itemOwner : owner item = worker := proper.owned worker item (by simp [front])
  have notAgain : item ∉ rest := by
    have nodup := proper.nodup worker
    rw [front] at nodup
    exact (List.nodup_cons.mp nodup).1
  rw [(proper.pop front).remains_iff, proper.remains_iff]
  by_cases same : owner other = worker
  · rw [same, Function.update_self, front, List.mem_cons]
    constructor
    · intro member
      refine ⟨.inr member, ?_⟩
      rintro rfl
      exact notAgain member
    · rintro ⟨rfl | member, differs⟩
      · exact absurd rfl differs
      · exact member
  · rw [Function.update_of_ne same]
    refine ⟨fun member => ⟨member, ?_⟩, And.left⟩
    rintro rfl
    exact same itemOwner

end Proper

/-! ## Lists that are run through in order -/

def Suffixes (todo full : ω → List Item) : Prop := ∀ worker, todo worker <:+ full worker

theorem Suffixes.pop [DecidableEq ω] {full : ω → List Item} (suffixes : Suffixes todo full)
    (front : todo worker = item :: rest) : Suffixes (Function.update todo worker rest) full := by
  intro other
  by_cases same : other = worker
  · subst same
    rw [Function.update_self]
    have := suffixes other
    rw [front] at this
    exact (List.suffix_cons item rest).trans this
  · rw [Function.update_of_ne same]
    exact suffixes other

theorem Proper.suffix {full : ω → List Item} (proper : Proper owner full)
    (suffixes : Suffixes todo full) : Proper owner todo :=
  ⟨fun worker item member => proper.owned worker item ((suffixes worker).subset member),
    fun worker => (proper.nodup worker).sublist (suffixes worker).sublist⟩

/-- What is done comes before what is left. -/
theorem Suffixes.done_before {full : ω → List Item} (suffixes : Suffixes todo full)
    {before : Item → Item → Prop} (ordered : (full worker).Pairwise before) {other : Item}
    (member : other ∈ full worker) (done : other ∉ todo worker)
    (front : todo worker = item :: rest) : before other item := by
  obtain ⟨past, split⟩ := suffixes worker
  rw [← split] at ordered member
  rcases List.mem_append.mp member with earlier | left
  · exact (List.pairwise_append.mp ordered).2.2 _ earlier _ (by simp [front])
  · exact absurd left done

/-- If a worker only ever waits for an item of smaller rank and runs through its items in
the order of their ranks, then some worker with something to do is not waiting. -/
theorem exists_enabled {rank : Item → Nat} {enabled : ω → Prop}
    (ordered : ∀ worker, (todo worker).Pairwise fun one two => rank one ≤ rank two)
    (waits : ∀ worker item rest, todo worker = item :: rest →
      enabled worker ∨ ∃ earlier, Remains todo earlier ∧ rank earlier < rank item)
    (remains : Remains todo item) : ∃ worker, todo worker ≠ [] ∧ enabled worker := by
  induction bound : rank item using Nat.strong_induction_on generalizing item with
  | _ _ ih =>
    subst bound
    obtain ⟨worker, member⟩ := remains
    cases front : todo worker with
    | nil =>
      rw [front] at member
      cases member
    | cons first rest =>
      have ascending := ordered worker
      rw [front] at ascending member
      have first_le : rank first ≤ rank item := by
        rcases List.mem_cons.mp member with rfl | later
        · exact le_rfl
        · exact (List.pairwise_cons.mp ascending).1 item later
      rcases waits worker first rest front with moves | ⟨earlier, left, less⟩
      · exact ⟨worker, by simp [front], moves⟩
      · exact ih _ (less.trans_le first_le) left rfl

end TpccRunner.Lib.Worklist
