import TpccRunner.Utils.Bitmap
import TpccRunner.Utils.Version
import TpccRunner.Lib.SortedVector

/-!
# The version arrays of Serval

`row_region.hpp`: the global version array of an uncontended row, a vector of
serial ids and versions, and the row region of a contended one, with a bitmap of
cores and for each core a bitmap of transactions and the versions in the order
of the transactions.  `Value` is the row with its lock, epoch and master; its
methods here are the ones that `serval.hpp` runs under the row lock or on the
caller's own core.
-/

set_option autoImplicit false

namespace TpccRunner.Serval

open TpccRunner.Utils TpccRunner.Lib
open SortedVector (Ascending)

/-! ## `GlobalVersionArray` -/

abbrev GlobalVersionArray := List (Int × Nat)

namespace GlobalVersionArray

def searchVisibleVersion (array : GlobalVersionArray) (serialId : Int) : Option (Int × Nat) :=
  match array with
  | [] => none
  | first :: _ => if serialId ≤ first.1 then none else SortedVector.lastBelow serialId array

def append (array : GlobalVersionArray) (version : Nat) (serialId : Int) : GlobalVersionArray :=
  SortedVector.insertUpper (serialId, version) array

def isDirty (array : GlobalVersionArray) : Bool := !array.isEmpty

end GlobalVersionArray

/-! ## `PerCoreVersionArray` -/

structure PerCoreVersionArray where
  transactionBitmap : Bitmap := 0
  slots : List Nat := []

namespace PerCoreVersionArray

def get (array : PerCoreVersionArray) (tx : Nat) : Nat :=
  let len := countBits (array.transactionBitmap &&& fillTheLeftSideUntilTheGivenPosition tx)
  array.slots.getD (len - 1) 0

/-- The version taken off; the bit of its transaction stays. -/
def popLatest (array : PerCoreVersionArray) : Nat × PerCoreVersionArray :=
  (array.slots.getLast?.getD 0, { array with slots := array.slots.dropLast })

def append (array : PerCoreVersionArray) (version txId : Nat) : PerCoreVersionArray where
  slots := array.slots.insertIdx (countBits array.transactionBitmap) version
  transactionBitmap := setBitAtTheGivenLocation array.transactionBitmap txId

end PerCoreVersionArray

/-! ## `RowRegion` -/

structure RowRegion where
  coreBitmap : Bitmap := 0
  arrays : Nat → PerCoreVersionArray := fun _ => {}

namespace RowRegion

def transactionBitmap (region : RowRegion) (core : Nat) : Bitmap :=
  (region.arrays core).transactionBitmap

def identifyVisibleVersion (region : RowRegion) (core tx : Nat) : Option (Nat × Nat) :=
  Utils.identifyVisibleVersion region.coreBitmap region.transactionBitmap core tx

def isFirstWrite (region : RowRegion) (core : Nat) : Bool :=
  !isBitSetAtThePosition region.coreBitmap core

/-- `append`; the first write of a core in an epoch clears what is left in its
array. -/
def append (region : RowRegion) (core version tx : Nat) : RowRegion :=
  if region.isFirstWrite core then
    { coreBitmap := region.coreBitmap ||| bitAtTheGivenLocation core
      arrays := Function.update region.arrays core (PerCoreVersionArray.append {} version tx) }
  else
    { region with
      arrays := Function.update region.arrays core ((region.arrays core).append version tx) }

def appendFrees (region : RowRegion) (core : Nat) : List Nat :=
  if region.isFirstWrite core then (region.arrays core).slots else []

def popFinalState (region : RowRegion) : Nat × RowRegion :=
  let core := findTheLargest region.coreBitmap
  let (latest, array) := (region.arrays core).popLatest
  (latest, { region with arrays := Function.update region.arrays core array })

def initializeCoreBitmap (region : RowRegion) : RowRegion := { region with coreBitmap := 0 }

def isDirty (region : RowRegion) : Bool := region.coreBitmap ≠ 0

end RowRegion

/-! ## `Value` -/

structure Value where
  locked : Bool := false
  epoch : Nat := 0
  master : Nat
  globalArray : GlobalVersionArray := []
  rowRegion : Option RowRegion := none
  heap : Heap

/-- The `uint64_t` an `int` serial id is converted to. -/
def toUint64 : Int → Nat
  | .ofNat serial => serial
  | .negSucc below => 2 ^ 64 - 1 - below

def moveGlobalArrayToRowRegion (array : GlobalVersionArray) (region : RowRegion) : RowRegion :=
  array.foldl (fun region entry =>
    region.append (toUint64 entry.1 / 64) entry.2 (toUint64 entry.1 % 64)) region

namespace Value

def hasDirtyRegion (val : Value) : Bool :=
  match val.rowRegion with
  | some region => region.isDirty
  | none => false

def gcMasterVersion (val : Value) (latest : Nat) : Value :=
  { val with master := latest, heap := val.heap.free [val.master] }

/-- The final state of the last epoch that wrote the row becomes the master. -/
def initializeTheRow (val : Value) (epoch : Nat) : Value :=
  let val :=
    match val.globalArray.getLast?, val.rowRegion with
    | some (_, latest), _ =>
      { val with globalArray := [],
                 heap := val.heap.free (val.globalArray.dropLast.map Prod.snd) }.gcMasterVersion
        latest
    | none, some region =>
      if region.coreBitmap ≠ 0 then
        let (latest, region) := region.popFinalState
        { val with rowRegion := some region.initializeCoreBitmap }.gcMasterVersion latest
      else val
    | none, none => val
  { val with epoch }

def appendToUncontendedRow (val : Value) (serialId : Nat) : Value :=
  { val with globalArray := val.globalArray.append val.heap.next serialId
             heap := val.heap.createPendingVersion }

def appendToContendedRow (val : Value) (region : RowRegion) (core serialId : Nat) : Value :=
  { val with rowRegion := some (region.append core val.heap.next (serialId % 64))
             heap := (val.heap.free (region.appendFrees core)).createPendingVersion }

/-- Fetches an unused region and fills it before it is published. -/
def installRegion (val : Value) : Value :=
  { val with rowRegion := some (moveGlobalArrayToRowRegion val.globalArray {}), globalArray := [] }

/-- The two stores of `upsert`. -/
def storeRecord (val : Value) (pointer : Nat) (record : Record) : Value :=
  { val with heap := val.heap.storeRecord pointer record }

def storeStable (val : Value) (pointer : Nat) : Value :=
  { val with heap := val.heap.storeStable pointer }

/-- What `Serval::read` decides to read: a version, and whether it waits for it.
`none` stands for the `nullptr` after a failed assertion. -/
def selectVersion (val : Value) (epoch core serialId : Nat) : Option (Nat × Bool) :=
  if val.epoch ≠ epoch then some (val.master, false)
  else if val.globalArray ≠ [] then
    match val.globalArray.searchVisibleVersion serialId with
    | some (_, version) => some (version, true)
    | none => some (val.master, false)
  else
    match val.rowRegion with
    | some region =>
      if region.coreBitmap ≠ 0 then
        match region.identifyVisibleVersion core (serialId % 64) with
        | some (visibleCore, visibleTx) => some ((region.arrays visibleCore).get visibleTx, true)
        | none => some (val.master, false)
      else none
    | none => none

end Value

end TpccRunner.Serval
