import TpccRunner.Common.EpochClients
import TpccRunner.Common.ReadWriteSet

/-!
# Memory reclamation in Silo

What `protocols/silo/include/silo.hpp` does with pointers: `idx.find` and
`idx.insert` of the operations, `get_record_pointer` (the record pointer is
loaded after the tidword was seen unlocked), the write set, the three phases of
`precommit` with their locks, the epoch load and the calls of
`GarbageCollector::collect`, `unlock_writeset`, `abort` and the destructor.
Which values a transaction reads and writes is left open, and so is the outcome
of phase 2, which compares tids and node versions.
-/

set_option autoImplicit false

namespace TpccRunner.Silo.Reclamation

open Lib Epoch

variable {n : Nat} {K : Type}

/-- Where pointers stand: a key of the index leads to a `Value`, the `rec` field of
a `Value` to a record. -/
inductive Slot (K : Type) where
  | key (key : K)
  | record (val : Nat)
  deriving DecidableEq

/-- Where a transaction is.  The element lists are the parts of the loops of
`precommit` and `abort` that are still to do (and, in phase 1, those done). -/
inductive Phase (K : Type) where
  | running
  | locking (locked rest : List (Element K))
  | validating (commitEpoch : Nat) (locked : List (Element K))
  | writing (commitEpoch : Nat) (rest : List (Element K))
  | removing (commitEpoch : Nat) (element : Element K) (rest : List (Element K))
  | unlocking (rest : List (Element K))
  | aborting (rest : List (Element K))
  | retired (element : Element K) (rest : List (Element K))

def Phase.locked : Phase K → List (Element K)
  | .locking locked _ => locked
  | .validating _ locked => locked
  | .writing _ rest => rest
  | .removing _ _ rest => rest
  | .unlocking rest => rest
  | .running | .aborting _ | .retired _ _ => []

def Phase.commitEpoch : Phase K → Option Nat
  | .validating e _ => some e
  | .writing e _ => some e
  | .removing e _ _ => some e
  | .running | .locking _ _ | .unlocking _ | .aborting _ | .retired _ _ => none

structure Tx (K : Type) where
  phase : Phase K
  writeSet : List (Element K)
  /-- The `Value` whose tidword `get_record_pointer` has last seen unlocked. -/
  peeked : Option Nat

def Tx.new : Tx K where
  phase := .running
  writeSet := []
  peeked := none

def Tx.running (tx : Tx K) : Bool := tx.phase matches .running

structure TidWords where
  lock : Nat → Bool
  /-- `is_readable`: the tidword's `latest` is set and `absent` is not. -/
  readable : Nat → Bool

abbrev System (n : Nat) (K : Type) := Clients n (Slot K) TidWords (Tx K)

structure Database (K : Type) extends Loaded (Slot K) where
  owned : ∀ val object, slots (.record val) = some object → ∃ key, slots (.key key) = some val

def System.start (uninitialised : Fin n → Nat) (database : Database K) : System n K where
  heap := Heap.start uninitialised database.toLoaded
  shared := { lock := fun _ => false, readable := fun _ => true }
  tx _ := Tx.new

inductive Action (K : Type) where
  | find (key : K)
  | peek (key : K) (val : Nat)
  | loadRecord
  | write (key : K) (val : Nat) (rwt : ReadWriteType)
  | retype (key : K) (rwt : ReadWriteType)
  | insert (key : K)
  | precommit (order : List (Element K))
  | lockNext
  | loadEpoch
  | validate (valid : Bool)
  | writeNext
  | removeNext
  | unlockNext
  | abort
  | abortNext
  | unlinkNext
  | finish

abbrev Label (n : Nat) (K : Type) := ClientLabel n (Action K)

def System.setPhase (system : System n K) (worker : Fin n) (phase : Phase K) : System n K :=
  system.setTx worker { system.tx worker with phase }

def System.setLock (system : System n K) (val : Nat) (lock : Bool) : System n K :=
  { system with shared.lock := Function.update system.shared.lock val lock }

def System.peek [DecidableEq K] (system : System n K) (worker : Fin n) (key : K) (val : Nat) :
    Option (System n K) :=
  -- the inner loop of `get_record_pointer` waits while the tidword is locked
  if system.heap.pointers.Obtained worker (.key key) val ∧ system.shared.lock val = false then
    some (system.setTx worker { system.tx worker with peeked := some val })
  else none

/-- `update`, `write`, `upsert` and `remove` of a key that was found. -/
def System.write [DecidableEq K] (system : System n K) (worker : Fin n) (key : K) (val : Nat)
    (rwt : ReadWriteType) : Option (System n K) :=
  if system.heap.pointers.Obtained worker (.key key) val ∧ rwt ≠ .read then
    some (system.setTx worker { system.tx worker with
      writeSet := (system.tx worker).writeSet ++ [⟨key, val, rwt, false⟩] })
  else none

/-- A later operation on a key of the write set. -/
def System.retype [DecidableEq K] (system : System n K) (worker : Fin n) (key : K)
    (rwt : ReadWriteType) : Option (System n K) :=
  if rwt ≠ .read then
    some (system.setTx worker { system.tx worker with
      writeSet := (system.tx worker).writeSet.map fun element =>
        if element.key = key then { element with rwt } else element })
  else none

/-- `insert`, `write` and `upsert` of a key that is not in the index. -/
def System.insert [DecidableEq K] (system : System n K) (worker : Fin n) (key : K) :
    Option (System n K) :=
  if system.heap.pointers.slots (.key key) = none then
    let val := system.heap.pointers.next
    (system.heap.step (.exchange worker (.key key) 0 true)).map fun heap =>
      { heap
        shared :=
          { lock := Function.update system.shared.lock val false
            readable := Function.update system.shared.readable val false }
        tx := Function.update system.tx worker { system.tx worker with
          writeSet := (system.tx worker).writeSet ++ [⟨key, val, .insert, true⟩] } }
  else none

/-- The start of `precommit`: phase 1 goes through the write set sorted by key. -/
def System.precommit [DecidableEq K] (system : System n K) (worker : Fin n)
    (order : List (Element K)) : Option (System n K) :=
  if order.isPerm (system.tx worker).writeSet then
    some (system.setTx worker { system.tx worker with
      phase := .locking [] order
      writeSet := order })
  else none

/-- Phase 1, one element: `lock`, then the check that it is still readable. -/
def System.lockNext (system : System n K) (worker : Fin n) : Option (System n K) :=
  match (system.tx worker).phase with
  | .locking locked (element :: rest) =>
    if system.shared.lock element.val then none
    else
      some ((system.setLock element.val true).setPhase worker
        (if !element.isNew && !system.shared.readable element.val then
          .unlocking (locked ++ [element])
        else .locking (locked ++ [element]) rest))
  | _ => none

def System.loadEpoch (system : System n K) (worker : Fin n) : Option (System n K) :=
  match (system.tx worker).phase with
  | .locking locked [] =>
    some (system.setPhase worker (.validating system.heap.epochs.globalEpoch locked))
  | _ => none

def System.validate (system : System n K) (worker : Fin n) (valid : Bool) :
    Option (System n K) :=
  match (system.tx worker).phase with
  | .validating e locked =>
    some (system.setPhase worker (if valid then .writing e locked else .unlocking locked))
  | _ => none

/-- Phase 3, one element: exchange of the record, store of the unlocked tidword and
`collect(commit_tw.epoch, old)`. -/
def System.writeNext [DecidableEq K] (system : System n K) (worker : Fin n) :
    Option (System n K) :=
  match (system.tx worker).phase with
  | .writing e (element :: rest) =>
    let deleted := decide (element.rwt = .delete)
    (system.heap.step (.exchange worker (.record element.val) e (!deleted))).map fun heap =>
      { heap
        shared :=
          { lock := Function.update system.shared.lock element.val false
            readable := Function.update system.shared.readable element.val (!deleted) }
        tx := Function.update system.tx worker { system.tx worker with
          phase := if deleted then .removing e element rest else .writing e rest } }
  | _ => none

/-- Phase 3, a deleted element: `idx.remove` and `collect(commit_tw.epoch, val)`. -/
def System.removeNext [DecidableEq K] (system : System n K) (worker : Fin n) :
    Option (System n K) :=
  match (system.tx worker).phase with
  | .removing e element rest =>
    (system.heap.step (.unlink worker (.key element.key) element.val e)).map fun heap =>
      System.setPhase { system with heap } worker (.writing e rest)
  | _ => none

/-- `unlock_writeset`, one element. -/
def System.unlockNext (system : System n K) (worker : Fin n) : Option (System n K) :=
  match (system.tx worker).phase with
  | .unlocking (element :: rest) =>
    some ((system.setLock element.val false).setPhase worker (.unlocking rest))
  | _ => none

def System.abort (system : System n K) (worker : Fin n) : Option (System n K) :=
  match (system.tx worker).phase, system.heap.pointers.stamp worker with
  | .running, some _ | .unlocking [], some _ =>
    some (system.setPhase worker (.aborting (system.tx worker).writeSet))
  | _, _ => none

/-- `abort`, one element: an inserted `Value` is locked, marked absent and unlocked. -/
def System.abortNext (system : System n K) (worker : Fin n) : Option (System n K) :=
  match (system.tx worker).phase with
  | .aborting (element :: rest) =>
    if element.isNew then
      if system.shared.lock element.val then none
      else
        some (System.setPhase { system with
          shared.readable := Function.update system.shared.readable element.val false } worker
            (.retired element rest))
    else some (system.setPhase worker (.aborting rest))
  | .aborting [] =>
    some (system.setTx worker { system.tx worker with phase := .running, writeSet := [] })
  | _ => none

/-- `abort`, an inserted `Value`: `idx.remove` and `collect(starting_epoch, val)`. -/
def System.unlinkNext [DecidableEq K] (system : System n K) (worker : Fin n) :
    Option (System n K) :=
  match (system.tx worker).phase, system.heap.pointers.stamp worker with
  | .retired element rest, some e =>
    (system.heap.step (.unlink worker (.key element.key) element.val e)).map fun heap =>
      System.setPhase { system with heap } worker (.aborting rest)
  | _, _ => none

def System.finish [DecidableEq K] (system : System n K) (worker : Fin n) :
    Option (System n K) :=
  match (system.tx worker).phase with
  | .running | .writing _ [] =>
    (system.heap.step (.remove worker)).map fun heap =>
      Clients.setTx { system with heap } worker Tx.new
  | _ => none

def System.act [DecidableEq K] (system : System n K) (worker : Fin n) :
    Action K → Option (System n K)
  | .find key => system.whenRunning Tx.running worker (system.onHeap (.find worker (.key key)))
  | .peek key val => system.whenRunning Tx.running worker (system.peek worker key val)
  | .loadRecord =>
    system.whenRunning Tx.running worker ((system.tx worker).peeked.bind fun val =>
      system.onHeap (.find worker (.record val)))
  | .write key val rwt => system.whenRunning Tx.running worker (system.write worker key val rwt)
  | .retype key rwt => system.whenRunning Tx.running worker (system.retype worker key rwt)
  | .insert key => system.whenRunning Tx.running worker (system.insert worker key)
  | .precommit order => system.whenRunning Tx.running worker (system.precommit worker order)
  | .lockNext => system.lockNext worker
  | .loadEpoch => system.loadEpoch worker
  | .validate valid => system.validate worker valid
  | .writeNext => system.writeNext worker
  | .removeNext => system.removeNext worker
  | .unlockNext => system.unlockNext worker
  | .abort => system.abort worker
  | .abortNext => system.abortNext worker
  | .unlinkNext => system.unlinkNext worker
  | .finish => system.finish worker

def System.step [DecidableEq K] : System n K → Label n K → Option (System n K) :=
  Clients.step System.act

/-- When a `Value` is taken out of the index, no active transaction that started in
a later epoch than the tag it is collected with has looked it up. -/
def System.Covering (system : System n K) (worker : Fin n) : Action K → Prop
  | .removeNext =>
    match (system.tx worker).phase with
    | .removing e element _ => system.heap.CoveredAt element.val e
    | _ => True
  | .unlinkNext =>
    match (system.tx worker).phase, system.heap.pointers.stamp worker with
    | .retired element _, some e => system.heap.CoveredAt element.val e
    | _, _ => True
  | _ => True

instance (system : System n K) (worker : Fin n) (action : Action K) :
    Decidable (system.Covering worker action) := by
  cases action <;> dsimp only [System.Covering] <;> try infer_instance
  all_goals split <;> infer_instance

abbrev System.Timely : System n K → Label n K → Prop := Clients.Timely System.Covering

end TpccRunner.Silo.Reclamation
