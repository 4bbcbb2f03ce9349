import TpccRunner.Caracal.RowBuffer

/-!
# What an append collects

`append_with_gc` in the current epoch leaves the greatest version from before the epoch,
those of the epoch and the new one, deletes the others, and no reader of the epoch or of
a later one notices.
-/

set_option autoImplicit false

namespace TpccRunner.Caracal

open TpccRunner.Lib
open SortedVector (Ascending insertUpper lastBelow)

/-- `(cur_e, 0)`: versions with a smaller id are older than the epoch. -/
def boundary (curE : Nat) : Nat := convertToGlobalId curE 0

def IsFinal (array : Slots) (curE : Nat) (last : Nat × Nat) : Prop :=
  last ∈ array ∧ last.1 < boundary curE ∧
    ∀ other ∈ array, other.1 < boundary curE → other.1 ≤ last.1

section Collection
variable {array : Slots} {curEpoch : Nat}

theorem minorGc_split (curEpoch : Nat) (array : Slots) :
    ∃ removed, array = removed ++ (GlobalVersionArray.minorGc curEpoch array).1 ∧
      (GlobalVersionArray.minorGc curEpoch array).2 = removed.map Prod.snd := by
  fun_induction GlobalVersionArray.minorGc curEpoch array with
  | case1 => exact ⟨[], rfl, rfl⟩
  | case2 oldest next rest _ kept freed result ih =>
    rw [result] at ih
    obtain ⟨removed, whole, deleted⟩ := ih
    exact ⟨oldest :: removed, congrArg (oldest :: ·) whole, congrArg (oldest.2 :: ·) deleted⟩
  | case3 => exact ⟨[], rfl, rfl⟩

/-- A lookup from the boundary on does not see the difference. -/
theorem lastBelow_minorGc (ascending : Ascending array) {bound : Nat} (le : curEpoch ≤ bound) :
    lastBelow bound (GlobalVersionArray.minorGc curEpoch array).1 = lastBelow bound array := by
  fun_induction GlobalVersionArray.minorGc curEpoch array with
  | case1 => rfl
  | case2 oldest next rest old kept freed result ih =>
    obtain ⟨above, tail⟩ := List.pairwise_cons.mp ascending
    rw [result] at ih
    have nextBelow : next.1 < bound := by omega
    have oldestBelow : oldest.1 < bound := (above next List.mem_cons_self).trans nextBelow
    rw [ih tail]
    simp only [lastBelow, List.takeWhile_cons, oldestBelow, nextBelow, decide_true, if_true,
      List.getLast?_cons_cons]
  | case3 => rfl

theorem filter_insertUpper {entry : Nat × Nat} (keep : Nat × Nat → Bool)
    (dropped : keep entry = false) (array : Slots) :
    (insertUpper entry array).filter keep = array.filter keep := by
  induction array with
  | nil => simp [insertUpper, dropped]
  | cons head rest ih =>
    rw [insertUpper]
    split
    · rw [List.filter_cons_of_neg (by simp [dropped])]
    · rw [List.filter_cons, List.filter_cons, ih]

theorem boundary_le (curE serialId : Nat) : boundary curE ≤ convertToGlobalId curE serialId := by
  rw [boundary, convertToGlobalId, convertToGlobalId, Nat.or_zero]
  exact Nat.left_le_or

theorem boundary_mono {curE epoch : Nat} (le : curE ≤ epoch) (fits : epoch < 2 ^ 32) :
    boundary curE ≤ boundary epoch := by
  rw [boundary, boundary, convertToGlobalId_eq (by omega) (by omega),
    convertToGlobalId_eq fits (by omega)]
  omega

theorem exists_final (ascending : Ascending array) {curE : Nat}
    (old : ∃ slot ∈ array, slot.1 < boundary curE) : ∃ last, IsFinal array curE last := by
  obtain ⟨found, greatest⟩ := SortedVector.lastBelow_spec ascending (boundary curE)
  cases last : lastBelow (boundary curE) array with
  | none =>
    rw [last] at greatest
    obtain ⟨slot, member, below⟩ := old
    exact absurd (greatest slot.1 ⟨slot.2, member⟩) (not_le.mpr below)
  | some entry =>
    rw [last] at greatest
    refine ⟨entry, found entry last, greatest.1.2, fun other member below => ?_⟩
    exact greatest.2 ⟨⟨other.2, member⟩, below⟩

end Collection

section Append
variable {array : Slots} {curE : Nat} {last new : Nat × Nat}

theorem mem_collected (ascending : Ascending (insertUpper new array))
    (final : IsFinal array curE last) (newAbove : boundary curE ≤ new.1) {slot : Nat × Nat} :
    slot ∈ (GlobalVersionArray.minorGc (boundary curE) (insertUpper new array)).1 ↔
      slot ∈ insertUpper new array ∧ last.1 ≤ slot.1 := by
  obtain ⟨lastMem, lastOld, upper⟩ := final
  rw [mem_minorGc ascending, and_congr_right_iff]
  intro _
  constructor
  · intro keeps
    exact keeps last (SortedVector.mem_insertUpper.mpr (.inr lastMem)) lastOld
  · intro above other member old
    rcases SortedVector.mem_insertUpper.mp member with rfl | known
    · omega
    · exact (upper other known old).trans above

theorem collected_freed (ascending : Ascending (insertUpper new array))
    (final : IsFinal array curE last) (newAbove : boundary curE ≤ new.1) :
    (GlobalVersionArray.minorGc (boundary curE) (insertUpper new array)).2 =
      (array.filter (·.1 < last.1)).map Prod.snd := by
  obtain ⟨removed, whole, deleted⟩ := minorGc_split (boundary curE) (insertUpper new array)
  have lastKept := (mem_collected ascending final newAbove).mpr
    ⟨SortedVector.mem_insertUpper.mpr (.inr final.1), le_rfl⟩
  have kept : ∀ slot ∈ (GlobalVersionArray.minorGc (boundary curE) (insertUpper new array)).1,
      ¬ slot.1 < last.1 := fun slot member =>
    not_lt.mpr ((mem_collected ascending final newAbove).mp member).2
  have gone : ∀ slot ∈ removed, slot.1 < last.1 := by
    intro slot member
    rw [Ascending, whole] at ascending
    exact (List.pairwise_append.mp ascending).2.2 slot member last lastKept
  have newStays : decide (new.1 < last.1) = false := by
    have := final.2.1
    simp only [decide_eq_false_iff_not, not_lt]
    omega
  rw [deleted, ← filter_insertUpper (fun slot => slot.1 < last.1) newStays array, whole,
    List.filter_append, List.filter_eq_self.mpr (by simpa using gone),
    List.filter_eq_nil_iff.mpr (by simpa using kept), List.append_nil]

end Append

/-- One append of the current epoch with its collection. -/
theorem appendWithGc_collects (array : Slots) (ascending : Ascending array) (curE : Nat)
    (old : ∃ slot ∈ array, slot.1 < boundary curE) (serialId version : Nat)
    (fresh : ∀ slot ∈ array, slot.1 ≠ convertToGlobalId curE serialId) :
    ∃ last kept, IsFinal array curE last ∧
      GlobalVersionArray.appendWithGc array version (convertToGlobalId curE serialId) curE =
        (kept, (array.filter (·.1 < last.1)).map Prod.snd) ∧
      Ascending kept ∧
      (∀ slot, slot ∈ kept ↔ slot = last ∨ slot ∈ array ∧ boundary curE ≤ slot.1 ∨
        slot = (convertToGlobalId curE serialId, version)) ∧
      ∀ epoch reader, curE ≤ epoch → epoch < 2 ^ 32 →
        GlobalVersionArray.searchVisibleVersion kept epoch reader =
          GlobalVersionArray.searchVisibleVersion
            (insertUpper (convertToGlobalId curE serialId, version) array) epoch reader := by
  obtain ⟨last, final⟩ := exists_final ascending old
  have newAbove := boundary_le curE serialId
  have inserted : Ascending (insertUpper (convertToGlobalId curE serialId, version) array) :=
    SortedVector.insertUpper_ascending ascending fresh
  refine ⟨last, _, final, Prod.ext rfl (collected_freed inserted final newAbove),
    inserted.sublist (minorGc_suffix _ _).sublist, fun slot => ?_,
    fun epoch reader le fits => ?_⟩
  · obtain ⟨lastMem, lastOld, upper⟩ := final
    refine (mem_collected inserted ⟨lastMem, lastOld, upper⟩ newAbove).trans ?_
    rw [SortedVector.mem_insertUpper]
    constructor
    · rintro ⟨rfl | known, above⟩
      · exact .inr (.inr rfl)
      · by_cases older : slot.1 < boundary curE
        · exact .inl (ascending.eq_of_id known lastMem (le_antisymm (upper slot known older) above))
        · exact .inr (.inl ⟨known, not_lt.mp older⟩)
    · rintro (rfl | ⟨known, young⟩ | rfl)
      · exact ⟨.inr lastMem, le_rfl⟩
      · exact ⟨.inr known, (lastOld.trans_le young).le⟩
      · exact ⟨.inl rfl, (lastOld.trans_le newAbove).le⟩
  · exact lastBelow_minorGc inserted ((boundary_mono le fits).trans (boundary_le epoch reader))

/-- Epoch 3 appends its version 7 to a row with two older versions and one of its own. -/
theorem appendWithGc_collects_epoch3 :
    Ascending [(0, 10), (convertToGlobalId 2 5, 11), (convertToGlobalId 3 1, 12)] ∧
    ∃ last kept,
      IsFinal [(0, 10), (convertToGlobalId 2 5, 11), (convertToGlobalId 3 1, 12)] 3 last ∧
      GlobalVersionArray.appendWithGc
          [(0, 10), (convertToGlobalId 2 5, 11), (convertToGlobalId 3 1, 12)] 13
          (convertToGlobalId 3 7) 3 =
        (kept, ([(0, 10), (convertToGlobalId 2 5, 11), (convertToGlobalId 3 1, 12)].filter
          (·.1 < last.1)).map Prod.snd) := by
  have ascending :
      Ascending [(0, 10), (convertToGlobalId 2 5, 11), (convertToGlobalId 3 1, 12)] := by
    simp only [Ascending]
    decide
  obtain ⟨last, kept, final, result, -⟩ := appendWithGc_collects
    [(0, 10), (convertToGlobalId 2 5, 11), (convertToGlobalId 3 1, 12)] ascending 3
    ⟨(0, 10), by decide, by decide⟩ 7 13 (by decide)
  exact ⟨ascending, last, kept, final, result⟩

/-- A reader of epoch 2 ^ 32, whose id has epoch 0, misses a version collected in epoch 1. -/
theorem overflowReader_misses_version :
    GlobalVersionArray.searchVisibleVersion (insertUpper (convertToGlobalId 1 0, 12)
        [(convertToGlobalId 0 0, 10), (convertToGlobalId 0 5, 11)]) (2 ^ 32) 3 = some (0, 10) ∧
      GlobalVersionArray.searchVisibleVersion (GlobalVersionArray.appendWithGc
        [(convertToGlobalId 0 0, 10), (convertToGlobalId 0 5, 11)] 12
        (convertToGlobalId 1 0) 1).1 (2 ^ 32) 3 = none := by
  decide

end TpccRunner.Caracal
