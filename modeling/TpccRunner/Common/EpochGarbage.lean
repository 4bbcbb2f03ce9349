import TpccRunner.Common.EpochManager
import TpccRunner.Lib.Reclamation

/-!
# Epoch-based reclamation

The `GarbageCollector` of `protocols/common/epoch_manager.hpp` and the shared
pointers its objects are found through.  A slot is a place that holds a pointer: a
key of the index (the pointer is a `Value*`) or the `rec` field of a `Value`.
Transactions find objects in slots, exchange them for new ones or for null, or
clear a slot they found one in, and hand what they took out to `collect`; the
destructor of a transaction calls `remove` with its starting epoch.  The
protocols say which slots they change and under which tag.
-/

set_option autoImplicit false

namespace TpccRunner.Epoch

open Lib

variable {n : Nat} {Slot : Type}

structure Heap (n : Nat) (Slot : Type) where
  epochs : State n
  /-- The stamp of an active transaction is its `starting_epoch`. -/
  pointers : Pointers (Fin n) Slot Nat
  /-- The thread-local multimap of `GarbageCollector`: tags and pointers. -/
  container : Fin n → List (Nat × Nat)

def Heap.start (uninitialised : Fin n → Nat) (loaded : Loaded Slot) : Heap n Slot where
  epochs := Epoch.start uninitialised
  pointers := Pointers.start loaded
  container _ := []

inductive HeapLabel (n : Nat) (Slot : Type) where
  | manage (label : Label n)
  | find (worker : Fin n) (slot : Slot)
  | exchange (worker : Fin n) (slot : Slot) (tag : Nat) (fresh : Bool)
  | unlink (worker : Fin n) (slot : Slot) (object tag : Nat)
  | remove (worker : Fin n)

def Heap.collect (heap : Heap n Slot) (worker : Fin n) (tag object : Nat) : Heap n Slot :=
  { heap with
    container := Function.update heap.container worker ((tag, object) :: heap.container worker) }

/-- `remove(current_epoch)` deallocates the entries up to `current_epoch - 2`. -/
def expired (currentEpoch tag : Nat) : Bool :=
  decide (2 ≤ currentEpoch) && decide (tag ≤ currentEpoch - 2)

/-- `GarbageCollector::remove` as the transaction's destructor calls it. -/
def Heap.remove (heap : Heap n Slot) (worker : Fin n) (currentEpoch : Nat) : Heap n Slot :=
  { heap with
    pointers := (heap.pointers.free fun object => (heap.container worker).any fun entry =>
      decide (entry.2 = object) && expired currentEpoch entry.1).leave worker
    container := Function.update heap.container worker
      ((heap.container worker).filter fun entry => !expired currentEpoch entry.1) }

/-- `exchange` of a slot, with `collect` of the pointer that was there. -/
def Heap.exchange [DecidableEq Slot] (heap : Heap n Slot) (worker : Fin n) (slot : Slot)
    (tag : Nat) (fresh : Bool) : Heap n Slot :=
  let exchanged : Heap n Slot := { heap with
    pointers := if fresh then heap.pointers.put worker slot else heap.pointers.clear slot }
  match heap.pointers.slots slot with
  | some old => exchanged.collect worker tag old
  | none => exchanged

/-- `remove` of a key from the index, with `collect` of the pointer the transaction
has found there. -/
def Heap.unlink [DecidableEq Slot] (heap : Heap n Slot) (worker : Fin n) (slot : Slot)
    (object tag : Nat) : Heap n Slot :=
  { heap with pointers := heap.pointers.clear slot }.collect worker tag object

def Heap.manage (heap : Heap n Slot) (label : Label n) : Option (Heap n Slot) :=
  (step heap.epochs label).map fun epochs => { heap with epochs }

def Heap.step [DecidableEq Slot] (heap : Heap n Slot) : HeapLabel n Slot → Option (Heap n Slot)
  | .manage (.beginLoad worker) =>
    if heap.pointers.stamp worker = none then heap.manage (.beginLoad worker) else none
  | .manage (.beginStore worker) =>
    (heap.manage (.beginStore worker)).map fun begun => { begun with
      pointers := begun.pointers.enter worker (begun.epochs.workerEpoch worker) }
  | .manage label => heap.manage label
  | .find worker slot =>
    match heap.pointers.stamp worker, heap.pointers.slots slot with
    | some _, some object => some { heap with
        pointers := heap.pointers.hold worker slot object }
    | _, _ => none
  | .exchange worker slot tag fresh =>
    if heap.pointers.stamp worker = none then none
    else some (heap.exchange worker slot tag fresh)
  | .unlink worker slot object tag =>
    if heap.pointers.Obtained worker slot object then
      some (heap.unlink worker slot object tag)
    else none
  | .remove worker => (heap.pointers.stamp worker).map fun e => heap.remove worker e

def Heap.Retired (heap : Heap n Slot) (object tag : Nat) : Prop :=
  ∃ worker, (tag, object) ∈ heap.container worker

/-- No active transaction that started after epoch `tag` has obtained `object`. -/
abbrev Heap.CoveredAt (heap : Heap n Slot) (object tag : Nat) : Prop :=
  Lib.CoveredAt heap.pointers.stamp heap.pointers.Holds object tag

instance (heap : Heap n Slot) (object tag : Nat) : Decidable (heap.CoveredAt object tag) :=
  decidable_of_iff
    (∀ reader, ∀ s ∈ heap.pointers.stamp reader,
      (∃ entry ∈ heap.pointers.held reader, entry.2 = object) → s ≤ tag)
    (by simp [Lib.CoveredAt, Pointers.Holds, Pointers.Obtained])

def Heap.Timely (heap : Heap n Slot) : HeapLabel n Slot → Prop
  | .manage label => Regular heap.epochs label
  | .exchange _ slot tag _ =>
    ∀ object, heap.pointers.slots slot = some object → heap.CoveredAt object tag
  | .unlink _ _ object tag => heap.CoveredAt object tag
  | _ => True

end TpccRunner.Epoch
