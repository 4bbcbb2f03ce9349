import TpccRunner.Lib.SortedVector
import TpccRunner.Utils.Workload

/-!
# The version array and the row buffers of Caracal

`row_buffer.hpp`: a row keeps its versions in one vector, ascending in the global
id of epoch and serial id.  Every insertion collects the versions that no
transaction of the current epoch can read any more.  A contended row also has a
buffer for each core, from which versions are appended in batches.
-/

set_option autoImplicit false

namespace TpccRunner.Caracal

open TpccRunner.Utils TpccRunner.Lib
open SortedVector (Ascending insertUpper lastBelow)

/-- `epoch << 32 | serial_id` in 64 bits. -/
def convertToGlobalId (epoch serialId : Nat) : Nat := (epoch <<< 32) % 2 ^ 64 ||| serialId

abbrev Slots := List (Nat × Nat)

namespace PerCoreBuffer

/-- The buffer with the version, and whether it still has room. -/
def appendable (maxSlots : Nat) (buffer : Slots) (version epoch serialId : Nat) : Slots × Bool :=
  let buffer := insertUpper (convertToGlobalId epoch serialId, version) buffer
  (buffer, buffer.length < maxSlots)

end PerCoreBuffer

namespace GlobalVersionArray

/-- Collects while the next version is older than the epoch; the second component
lists the deleted versions. -/
def minorGc (curEpoch : Nat) : Slots → Slots × List Nat
  | oldest :: next :: rest =>
    if curEpoch ≤ next.1 then (oldest :: next :: rest, [])
    else
      let (kept, freed) := minorGc curEpoch (next :: rest)
      (kept, oldest.2 :: freed)
  | array => (array, [])

def appendWithGc (array : Slots) (version globalId epochForGc : Nat) : Slots × List Nat :=
  minorGc (convertToGlobalId epochForGc 0) (insertUpper (globalId, version) array)

def append (array : Slots) (version epoch serialId : Nat) : Slots × List Nat :=
  appendWithGc array version (convertToGlobalId epoch serialId) epoch

def batchAppend (array buffer : Slots) (epochForGc : Nat) : Slots × List Nat :=
  buffer.foldl (fun result slot =>
    let (array, freed) := appendWithGc result.1 slot.2 slot.1 epochForGc
    (array, freed ++ result.2)) (array, [])

/-- `none` stands for stepping before the first slot. -/
def searchVisibleVersion (array : Slots) (epoch serialId : Nat) : Option (Nat × Nat) :=
  lastBelow (convertToGlobalId epoch serialId) array

end GlobalVersionArray

structure Value where
  locked : Bool := false
  globalArray : Slots
  rowBuffer : Option Nat := none
  heap : Heap

namespace Value

def appendToUncontendedRow (val : Value) (epoch serialId : Nat) : Value :=
  let (globalArray, freed) := GlobalVersionArray.append val.globalArray val.heap.next epoch serialId
  { val with globalArray, heap := val.heap.createPendingVersion.free freed }

def batchAppend (val : Value) (buffer : Slots) (epoch : Nat) : Value :=
  let (globalArray, freed) := GlobalVersionArray.batchAppend val.globalArray buffer epoch
  { val with globalArray, heap := val.heap.free freed }

def createPendingVersion (val : Value) : Value :=
  { val with heap := val.heap.createPendingVersion }

/-- The two stores of `upsert`. -/
def storeRecord (val : Value) (pointer : Nat) (record : Record) : Value :=
  { val with heap := val.heap.storeRecord pointer record }

def storeStable (val : Value) (pointer : Nat) : Value :=
  { val with heap := val.heap.storeStable pointer }

end Value

/-! ## Global ids order versions as epoch and serial id do -/

def globalId (at' : Nat ×ₗ Nat) : Nat := convertToGlobalId (ofLex at').1 (ofLex at').2

theorem globalId_toLex (epoch serialId : Nat) :
    globalId (toLex (epoch, serialId)) = convertToGlobalId epoch serialId := rfl

def Fits (at' : Nat ×ₗ Nat) : Prop := (ofLex at').1 < 2 ^ 32 ∧ (ofLex at').2 < 2 ^ 32

theorem convertToGlobalId_eq {epoch serialId : Nat} (epochFits : epoch < 2 ^ 32)
    (serialFits : serialId < 2 ^ 32) :
    convertToGlobalId epoch serialId = 2 ^ 32 * epoch + serialId := by
  rw [convertToGlobalId, Nat.shiftLeft_eq, Nat.mul_comm epoch, Nat.mod_eq_of_lt (by omega),
    Nat.two_pow_add_eq_or_of_lt serialFits]

theorem globalId_lt_iff {a b : Nat ×ₗ Nat} (aFits : Fits a) (bFits : Fits b) :
    globalId a < globalId b ↔ a < b := by
  obtain ⟨⟨aEpoch, aSerial⟩, rfl⟩ := toLex.surjective a
  obtain ⟨⟨bEpoch, bSerial⟩, rfl⟩ := toLex.surjective b
  obtain ⟨aBound, aSerialBound⟩ := aFits
  obtain ⟨bBound, bSerialBound⟩ := bFits
  simp only [ofLex_toLex] at aBound aSerialBound bBound bSerialBound
  simp only [globalId, ofLex_toLex, convertToGlobalId_eq aBound aSerialBound,
    convertToGlobalId_eq bBound bSerialBound, lex_lt]
  omega

theorem globalId_le_iff {a b : Nat ×ₗ Nat} (aFits : Fits a) (bFits : Fits b) :
    globalId a ≤ globalId b ↔ a ≤ b := by
  rw [← not_lt, ← not_lt, globalId_lt_iff bFits aFits]

theorem globalId_inj {a b : Nat ×ₗ Nat} (aFits : Fits a) (bFits : Fits b)
    (same : globalId a = globalId b) : a = b :=
  le_antisymm ((globalId_le_iff aFits bFits).mp same.le) ((globalId_le_iff bFits aFits).mp same.ge)

/-! ## What the collection keeps -/

section Gc
variable {array : Slots} {curEpoch : Nat}

theorem minorGc_suffix (curEpoch : Nat) (array : Slots) :
    (GlobalVersionArray.minorGc curEpoch array).1 <:+ array := by
  fun_induction GlobalVersionArray.minorGc curEpoch array with
  | case1 => exact List.suffix_rfl
  | case2 oldest next rest _ kept freed result ih =>
    rw [result] at ih
    exact ih.trans (List.suffix_cons oldest _)
  | case3 => exact List.suffix_rfl

theorem mem_minorGc (ascending : Ascending array) {slot : Nat × Nat} :
    slot ∈ (GlobalVersionArray.minorGc curEpoch array).1 ↔
      slot ∈ array ∧ ∀ other ∈ array, other.1 < curEpoch → other.1 ≤ slot.1 := by
  fun_induction GlobalVersionArray.minorGc curEpoch array with
  | case1 oldest next rest young =>
    refine ⟨fun member => ⟨member, fun other otherMem old => ?_⟩, And.left⟩
    obtain ⟨aboveOldest, tail⟩ := List.pairwise_cons.mp ascending
    have isOldest : other = oldest := by
      rcases List.mem_cons.mp otherMem with same | behind
      · exact same
      · have : next.1 ≤ other.1 := by
          rcases List.mem_cons.mp behind with rfl | far
          · exact le_rfl
          · exact ((List.pairwise_cons.mp tail).1 other far).le
        omega
    subst isOldest
    rcases List.mem_cons.mp member with rfl | behind
    · exact le_rfl
    · exact (aboveOldest slot behind).le
  | case2 oldest next rest old kept freed result ih =>
    obtain ⟨aboveOldest, tail⟩ := List.pairwise_cons.mp ascending
    rw [result] at ih
    rw [ih tail]
    have nextAbove := aboveOldest next (by simp)
    constructor
    · rintro ⟨member, keeps⟩
      refine ⟨List.mem_cons_of_mem _ member, fun other otherMem older => ?_⟩
      rcases List.mem_cons.mp otherMem with rfl | behind
      · exact (aboveOldest slot member).le
      · exact keeps other behind older
    · rintro ⟨member, keeps⟩
      refine ⟨?_, fun other otherMem => keeps other (List.mem_cons_of_mem _ otherMem)⟩
      rcases List.mem_cons.mp member with rfl | behind
      · exact absurd (keeps next (by simp) (by omega)) (by omega)
      · exact behind
  | case3 array notTwo =>
    refine ⟨fun member => ⟨member, fun other otherMem _ => ?_⟩, And.left⟩
    match array, notTwo with
    | [only], _ =>
      rw [List.mem_singleton.mp member, List.mem_singleton.mp otherMem]
    | oldest :: next :: rest, notTwo => exact absurd rfl (notTwo oldest next rest)

/-- What is deleted was superseded before the epoch. -/
theorem minorGc_freed (ascending : Ascending array) {pointer : Nat}
    (freed : pointer ∈ (GlobalVersionArray.minorGc curEpoch array).2) :
    ∃ slot ∈ array, slot.2 = pointer ∧
      ∃ later ∈ array, slot.1 < later.1 ∧ later.1 < curEpoch := by
  fun_induction GlobalVersionArray.minorGc curEpoch array with
  | case1 => cases freed
  | case2 oldest next rest old kept freedRest result ih =>
    obtain ⟨aboveOldest, tail⟩ := List.pairwise_cons.mp ascending
    rw [result] at ih
    rcases List.mem_cons.mp freed with rfl | inRest
    · exact ⟨oldest, by simp, rfl, next, by simp, aboveOldest next (by simp), by omega⟩
    · obtain ⟨slot, member, same, later, laterMem, above, older⟩ := ih tail inRest
      exact ⟨slot, List.mem_cons_of_mem _ member, same, later, List.mem_cons_of_mem _ laterMem,
        above, older⟩
  | case3 => cases freed

end Gc

end TpccRunner.Caracal
