import TpccRunner.Lib.Ranked

/-!
# Vectors of id/slot pairs

A vector of pairs is kept ascending in the first component: a new pair is
inserted before the first one with a larger id, and a lookup returns the last
pair whose id is below a bound.
-/

set_option autoImplicit false

namespace TpccRunner.Lib.SortedVector

universe u v

variable {ι : Type u} [LinearOrder ι] {α : Type v}

/-- `insert` at the `upper_bound` of the new id. -/
def insertUpper (entry : ι × α) : List (ι × α) → List (ι × α)
  | [] => [entry]
  | head :: rest =>
    if entry.1 < head.1 then entry :: head :: rest else head :: insertUpper entry rest

/-- The pair before the first one whose id is not below `bound`. -/
def lastBelow (bound : ι) (pairs : List (ι × α)) : Option (ι × α) :=
  (pairs.takeWhile (·.1 < bound)).getLast?

def Ascending (pairs : List (ι × α)) : Prop := pairs.Pairwise fun a b => a.1 < b.1

variable {pairs : List (ι × α)} {entry : ι × α}

theorem mem_insertUpper {other : ι × α} :
    other ∈ insertUpper entry pairs ↔ other = entry ∨ other ∈ pairs := by
  induction pairs with
  | nil => simp [insertUpper]
  | cons head rest ih =>
    simp only [insertUpper]
    split
    · simp
    · simp only [List.mem_cons, ih]
      tauto

theorem insertUpper_perm (entry : ι × α) (pairs : List (ι × α)) :
    (insertUpper entry pairs).Perm (entry :: pairs) := by
  induction pairs with
  | nil => exact .refl _
  | cons head rest ih =>
    rw [insertUpper]
    split
    · exact .refl _
    · exact (ih.cons head).trans (.swap entry head rest)

theorem insertUpper_ascending (ascending : Ascending pairs)
    (fresh : ∀ other ∈ pairs, other.1 ≠ entry.1) : Ascending (insertUpper entry pairs) := by
  induction pairs with
  | nil => simp [insertUpper, Ascending]
  | cons head rest ih =>
    obtain ⟨above, tail⟩ := List.pairwise_cons.mp ascending
    simp only [insertUpper]
    split
    next before =>
      refine List.pairwise_cons.mpr ⟨fun other member => ?_, ascending⟩
      rcases List.mem_cons.mp member with rfl | behind
      · exact before
      · exact before.trans (above other behind)
    next notBefore =>
      have after := lt_of_le_of_ne (not_lt.mp notBefore) (fresh head (by simp))
      refine List.pairwise_cons.mpr ⟨fun other member => ?_,
        ih tail fun other member => fresh other (List.mem_cons_of_mem _ member)⟩
      rcases mem_insertUpper.mp member with rfl | behind
      · exact after
      · exact above other behind

theorem Ascending.eq_of_id (ascending : Ascending pairs) {a b : ι × α} (aMem : a ∈ pairs)
    (bMem : b ∈ pairs) (same : a.1 = b.1) : a = b := by
  have nodup : (pairs.map Prod.fst).Nodup := by
    rw [List.nodup_iff_pairwise_ne, List.pairwise_map]
    exact ascending.imp fun less => less.ne
  exact List.inj_on_of_nodup_map nodup aMem bMem same

theorem Ascending.le_getLast (ascending : Ascending pairs) {last other : ι × α}
    (lastEq : pairs.getLast? = some last) (member : other ∈ pairs) : other.1 ≤ last.1 := by
  obtain ⟨front, split⟩ := List.getLast?_eq_some_iff.mp lastEq
  rw [Ascending, split] at ascending
  rw [split] at member
  rcases List.mem_append.mp member with behind | same
  · exact ((List.pairwise_append.mp ascending).2.2 _ behind _ (by simp)).le
  · rw [List.mem_singleton.mp same]

theorem mem_takeWhile_below (ascending : Ascending pairs) {bound : ι} {other : ι × α} :
    other ∈ pairs.takeWhile (·.1 < bound) ↔ other ∈ pairs ∧ other.1 < bound := by
  constructor
  · intro member
    exact ⟨(List.takeWhile_prefix _).subset member, by simpa using List.mem_takeWhile_imp member⟩
  · rintro ⟨member, below⟩
    induction pairs with
    | nil => cases member
    | cons head rest ih =>
      obtain ⟨above, tail⟩ := List.pairwise_cons.mp ascending
      rcases List.mem_cons.mp member with rfl | behind
      · simp [below]
      · have headBelow := (above other behind).trans below
        simp only [List.takeWhile_cons, headBelow, decide_true, if_true, List.mem_cons]
        exact .inr (ih tail behind)

theorem lastBelow_mem {bound : ι} {found : ι × α} (result : lastBelow bound pairs = some found) :
    found ∈ pairs ∧ found.1 < bound := by
  have member := List.mem_of_getLast? result
  exact ⟨(List.takeWhile_prefix _).subset member, by simpa using List.mem_takeWhile_imp member⟩

theorem lastBelow_spec (ascending : Ascending pairs) (bound : ι) :
    (∀ found ∈ lastBelow bound pairs, found ∈ pairs) ∧
      GreatestBelow {id | ∃ slot, (id, slot) ∈ pairs} bound
        ((lastBelow bound pairs).map Prod.fst) := by
  have front : Ascending (pairs.takeWhile (·.1 < bound)) :=
    ascending.sublist (List.takeWhile_sublist _)
  cases lastEq : lastBelow bound pairs with
  | none =>
    refine ⟨by simp, ?_⟩
    rintro id ⟨slot, member⟩
    by_contra below
    have inside := (mem_takeWhile_below ascending).mpr ⟨member, not_le.mp below⟩
    rw [List.getLast?_eq_none_iff.mp lastEq] at inside
    cases inside
  | some found =>
    have inside := List.mem_of_getLast? lastEq
    obtain ⟨member, below⟩ := (mem_takeWhile_below ascending).mp inside
    refine ⟨by rintro _ ⟨⟩; exact member, ⟨⟨found.2, member⟩, below⟩, ?_⟩
    rintro id ⟨⟨slot, otherMem⟩, otherBelow⟩
    exact front.le_getLast lastEq ((mem_takeWhile_below ascending).mpr ⟨otherMem, otherBelow⟩)

end TpccRunner.Lib.SortedVector
