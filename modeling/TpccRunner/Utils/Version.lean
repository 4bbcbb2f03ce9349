import Mathlib

/-!
# Versions of the deterministic protocols

A version holds a record and says whether the record has been written yet.  A
record is named by the transaction that wrote it, and a pointer to a version is
an allocation number of the row's own heap; `freed` lists the deleted ones.
-/

set_option autoImplicit false

namespace TpccRunner.Utils

inductive VersionStatus where
  | pending
  | stable
  deriving DecidableEq, Repr

inductive Record where
  | loaded
  | written (epoch serial : Nat)
  deriving DecidableEq, Repr

structure Version where
  record : Option Record := none
  status : VersionStatus := .pending
  deriving DecidableEq, Repr

structure Heap where
  versions : Nat → Version
  next : Nat
  freed : List Nat := []

namespace Heap

/-- `create_pending_version`; the new version is `heap.next`. -/
def createPendingVersion (heap : Heap) : Heap :=
  { heap with versions := Function.update heap.versions heap.next {}, next := heap.next + 1 }

def free (heap : Heap) (pointers : List Nat) : Heap := { heap with freed := pointers ++ heap.freed }

def setVersion (heap : Heap) (pointer : Nat) (version : Version) : Heap :=
  { heap with versions := Function.update heap.versions pointer version }

def storeRecord (heap : Heap) (pointer : Nat) (record : Record) : Heap :=
  heap.setVersion pointer { heap.versions pointer with record := some record }

def storeStable (heap : Heap) (pointer : Nat) : Heap :=
  heap.setVersion pointer { heap.versions pointer with status := .stable }

variable (heap : Heap)

theorem createPendingVersion_of_lt {pointer : Nat} (old : pointer < heap.next) :
    heap.createPendingVersion.versions pointer = heap.versions pointer :=
  Function.update_of_ne old.ne ..

@[simp] theorem createPendingVersion_next :
    heap.createPendingVersion.versions heap.next = {} := Function.update_self ..

@[simp] theorem free_versions (pointers : List Nat) :
    (heap.free pointers).versions = heap.versions := rfl

@[simp] theorem free_next (pointers : List Nat) : (heap.free pointers).next = heap.next := rfl

@[simp] theorem setVersion_self (pointer : Nat) (version : Version) :
    (heap.setVersion pointer version).versions pointer = version := Function.update_self ..

theorem setVersion_of_ne (version : Version) {pointer other : Nat} (differs : other ≠ pointer) :
    (heap.setVersion pointer version).versions other = heap.versions other :=
  Function.update_of_ne differs ..

theorem storeRecord_status (pointer : Nat) (record : Record) (other : Nat) :
    ((heap.storeRecord pointer record).versions other).status = (heap.versions other).status := by
  by_cases same : other = pointer
  · rw [same, storeRecord, setVersion_self]
  · rw [storeRecord, setVersion_of_ne _ _ same]

theorem storeStable_status (pointer other : Nat) :
    ((heap.storeStable pointer).versions other).status =
      if other = pointer then .stable else (heap.versions other).status := by
  split
  next same => rw [same, storeStable, setVersion_self]
  next differs => rw [storeStable, setVersion_of_ne _ _ differs]

end Heap

end TpccRunner.Utils
