import TpccRunner.Utils.Bitmap
import TpccRunner.Utils.Version
import TpccRunner.Lib.SortedVector

/-!
# `WriteBitmap`

The row of Serval_RC (`rw_bitmaps.hpp`).  Writers register in two levels of
bitmaps, readers then ask for a placeholder of the version they will see, and
the reference count says how many readers are still to come.  Every method runs
under the row lock, so it is one function of the row and of the versions it may
allocate or free.
-/

set_option autoImplicit false

namespace TpccRunner.ServalRc

open TpccRunner.Utils TpccRunner.Lib

structure WriteBitmap where
  refCnt : Nat := 0
  coreBitmap : Bitmap := 0
  master : Nat
  txBitmaps : List Bitmap := []
  placeholders : List (Nat × Nat) := []

namespace WriteBitmap

def countPrefixSum (row : WriteBitmap) (core : Nat) : Nat :=
  countBits (row.coreBitmap &&& fillTheLeftSideUntilBeforeTheGivenPosition core)

def updateTxBitmap (row : WriteBitmap) (pos tx : Nat) : WriteBitmap :=
  { row with txBitmaps :=
      row.txBitmaps.set pos (setBitAtTheGivenLocation (row.txBitmaps.getD pos 0) tx) }

def insertTxBitmap (row : WriteBitmap) (insertPos tx : Nat) : WriteBitmap :=
  { row with txBitmaps := row.txBitmaps.insertIdx insertPos (bitAtTheGivenLocation tx) }

def updateCoreBitmap (row : WriteBitmap) (core : Nat) : WriteBitmap :=
  { row with coreBitmap := setBitAtTheGivenLocation row.coreBitmap core }

def updateBitmap (row : WriteBitmap) (core txid : Nat) : WriteBitmap :=
  let insertPos := row.countPrefixSum core
  if isBitSetAtThePosition row.coreBitmap core then row.updateTxBitmap insertPos txid
  else (row.insertTxBitmap insertPos txid).updateCoreBitmap core

def clearBitmaps (row : WriteBitmap) : WriteBitmap := { row with coreBitmap := 0, txBitmaps := [] }

/-- The bitmaps are cleared whether or not the caller is the final writer. -/
def isFinalState (row : WriteBitmap) (core tx : Nat) : Bool × WriteBitmap :=
  if row.coreBitmap ≠ 0 then
    let lastCore := findTheLargest row.coreBitmap
    let lastTx := findTheLargest (row.txBitmaps.getLast?.getD 0)
    (lastCore = core ∧ lastTx = tx, row.clearBitmaps)
  else (false, row)

def txBitmap (row : WriteBitmap) (core : Nat) : Bitmap :=
  row.txBitmaps.getD (row.countPrefixSum core) 0

def identifyVisibleVersionInPlaceholders (row : WriteBitmap) (core tx : Nat) :
    Option (Nat × Nat) :=
  identifyVisibleVersion row.coreBitmap row.txBitmap core tx

end WriteBitmap

/-- `--` on a `uint64_t`. -/
def uint64Pred : Nat → Nat
  | 0 => 2 ^ 64 - 1
  | count + 1 => count

theorem uint64Pred_of_pos {count : Nat} (positive : count ≠ 0) : uint64Pred count = count - 1 := by
  cases count with
  | zero => exact absurd rfl positive
  | succ count => rfl

structure Memory extends Heap where
  row : WriteBitmap

namespace Memory

def gcMaster (mem : Memory) : Memory :=
  { mem with toHeap := mem.free [mem.row.master] }

def doAppendPendingVersion (mem : Memory) (core tx : Nat) : Nat × Memory :=
  if mem.row.coreBitmap ≠ 0 then
    match mem.row.identifyVisibleVersionInPlaceholders core tx with
    | some visible =>
      let visibleId := serialId visible
      match mem.row.placeholders.find? (·.1 = visibleId) with
      | some (_, version) => (version, mem)
      | none =>
        let version := mem.next
        (version, { mem with
          toHeap := mem.createPendingVersion
          row := { mem.row with
            placeholders := SortedVector.insertUpper (visibleId, version) mem.row.placeholders } })
    | none => (mem.row.master, mem)
  else (mem.row.master, mem)

def appendPendingVersion (mem : Memory) (core tx : Nat) : Nat × Memory :=
  { mem with row := { mem.row with refCnt := mem.row.refCnt + 1 } }.doAppendPendingVersion core tx

def gcAndUpdateMaster (mem : Memory) : Memory :=
  let mem :=
    match mem.row.placeholders.getLast? with
    | some (_, version) =>
      let mem := mem.gcMaster
      { mem with row := { mem.row with master := version, placeholders := [] } }
    | none => mem
  { mem with row := mem.row.clearBitmaps }

def decrementRefCnt (mem : Memory) : Memory :=
  let mem := { mem with row := { mem.row with refCnt := uint64Pred mem.row.refCnt } }
  if mem.row.refCnt = 0 then mem.gcAndUpdateMaster else mem

def identifyWriteVersion (mem : Memory) (core tx : Nat) : Option Nat × Memory :=
  if mem.row.refCnt ≠ 0 then
    ((mem.row.placeholders.find? (·.1 = serialId (core, tx))).map Prod.snd, mem)
  else
    let (isFinal, row) := mem.row.isFinalState core tx
    if isFinal then
      let mem := { mem with row }.gcMaster
      let version := mem.next
      (some version, { mem with
        toHeap := mem.createPendingVersion
        row := { mem.row with master := version } })
    else (none, { mem with row })

end Memory

/-! ## What the bitmaps hold -/

def Registered (row : WriteBitmap) (serials : Set Nat) : Prop :=
  ∃ txs : Nat → Bitmap, Holds row.coreBitmap txs serials ∧
    row.txBitmaps = ranked (positions row.coreBitmap) txs

section Row
variable {row : WriteBitmap} {serials : Set Nat} {core tx : Nat}

theorem countPrefixSum_eq_rank (row : WriteBitmap) (inside : core ≤ 64) :
    row.countPrefixSum core = rank (positions row.coreBitmap) core := by
  rw [WriteBitmap.countPrefixSum, countBits_eq_card, positions_fillBefore _ inside, rank]

theorem Registered.holds (registered : Registered row serials) :
    Holds row.coreBitmap row.txBitmap serials := by
  obtain ⟨txs, holds, ranks⟩ := registered
  refine ⟨holds.cores, fun core member => ?_⟩
  have inside := lt_of_mem_positions member
  have same : row.txBitmap core = txs core := by
    rw [WriteBitmap.txBitmap, countPrefixSum_eq_rank _ inside.le, ranks, List.getD_eq_getElem?_getD,
      ranked_get member, Option.getD_some]
  rw [same]
  exact holds.txs core member

theorem registered_empty {row : WriteBitmap} (cores : row.coreBitmap = 0)
    (txs : row.txBitmaps = []) : Registered row ∅ := by
  refine ⟨fun _ => 0, ⟨?_, ?_⟩, ?_⟩ <;> simp [cores, txs]

theorem Registered.congr {row' : WriteBitmap} (registered : Registered row serials)
    (cores : row'.coreBitmap = row.coreBitmap) (txs : row'.txBitmaps = row.txBitmaps) :
    Registered row' serials := by
  rw [Registered, cores, txs]
  exact registered

theorem Registered.coreBitmap_eq_zero (registered : Registered row serials) :
    row.coreBitmap = 0 ↔ serials = ∅ := by
  rw [← positions_eq_empty, Finset.eq_empty_iff_forall_notMem, Set.eq_empty_iff_forall_notMem]
  constructor
  · intro none serial member
    exact none _ (registered.holds.core_of_mem member).1
  · intro none core member
    obtain ⟨tx, -, serialMem⟩ := (registered.holds.cores core).mp member
    exact none _ serialMem

theorem updateBitmap_registered (registered : Registered row serials) (coreBound : core < 64)
    (txBound : tx < 64) :
    Registered (row.updateBitmap core tx) (insert (serialId (core, tx)) serials) := by
  obtain ⟨txs, holds, ranks⟩ := registered
  have prefixSum := countPrefixSum_eq_rank row coreBound.le
  simp only [WriteBitmap.updateBitmap, isBitSet_iff coreBound, prefixSum]
  split
  next member =>
    have current : row.txBitmaps.getD (rank (positions row.coreBitmap) core) 0 = txs core := by
      rw [ranks, List.getD_eq_getElem?_getD, ranked_get member, Option.getD_some]
    have unchanged : setBitAtTheGivenLocation row.coreBitmap core = row.coreBitmap := by
      apply positions_injective
      rw [positions_setBit coreBound, Finset.insert_eq_of_mem member]
    refine ⟨Function.update txs core (setBitAtTheGivenLocation (txs core) tx), ?_, ?_⟩
    · have inserted := holds_insert holds coreBound txBound fun other =>
        (show other ∈ positions (setBitAtTheGivenLocation (txs core) tx) ↔ _ by
          rw [positions_setBit txBound, Finset.mem_insert, and_iff_right member])
      rwa [unchanged] at inserted
    · rw [WriteBitmap.updateTxBitmap, current, ranks, ranked_set member]
  next absent =>
    refine ⟨Function.update txs core (bitAtTheGivenLocation tx),
      holds_insert holds coreBound txBound ?_, ?_⟩
    · intro other
      rw [positions_bitAt txBound, Finset.mem_singleton, or_iff_left fun again => absent again.1]
    · simp only [WriteBitmap.updateCoreBitmap, WriteBitmap.insertTxBitmap,
        positions_setBit coreBound, ranks, ranked_insert absent]

/-- The last core's last transaction is the writer with the largest serial id. -/
theorem isFinalState_spec (registered : Registered row serials) (txBound : tx < 64) :
    ((row.isFinalState core tx).1 = true ↔ IsGreatest serials (serialId (core, tx))) ∧
      (row.isFinalState core tx).2 = row.clearBitmaps := by
  by_cases zero : row.coreBitmap = 0
  · have none := registered.coreBitmap_eq_zero.mp zero
    obtain ⟨txs, -, ranks⟩ := registered
    have noTxs : row.txBitmaps = [] := by
      rw [ranks, positions_eq_empty.mpr zero, ranked_empty]
    simp only [WriteBitmap.isFinalState, zero, ne_eq, not_true_eq_false, if_false]
    refine ⟨by simp [IsGreatest, none], ?_⟩
    simp only [WriteBitmap.clearBitmaps, ← zero, ← noTxs]
  · obtain ⟨txs, holds, ranks⟩ := registered
    have greatestCore := findTheLargest_isGreatest zero
    have last : row.txBitmaps.getLast?.getD 0 = txs (findTheLargest row.coreBitmap) := by
      rw [ranks, ranked_getLast greatestCore, Option.getD_some]
    have lastTx := findTheLargest_isGreatest (holds.txBitmap_ne_zero greatestCore.1)
    have greatest := holds.greatest zero
    simp only [WriteBitmap.isFinalState, ne_eq, zero, not_false_eq_true, if_true, last,
      decide_eq_true_eq, and_true]
    constructor
    · rintro ⟨rfl, rfl⟩
      exact greatest
    · intro other
      exact serialId_inj (lt_of_mem_positions lastTx.1) txBound (greatest.unique other)

end Row

end TpccRunner.ServalRc
