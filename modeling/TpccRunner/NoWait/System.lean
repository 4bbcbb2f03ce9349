import TpccRunner.Lib.Serial
import TpccRunner.NoWait.Locking

/-!
# Transactions of NoWait

The operations of `protocols/nowait/include/nowait.hpp` on the keys that were loaded, as the
workers interleave them: `read`, `update` and `upsert`, the scans as one access for each key,
and the loops of `precommit` and `abort`, which visit the elements of the set in any order.
`insert` and `remove`, which change the index, are left out.  Each access to `val->rwl` or
`val->rec` is a step.  A transaction aborts when an operation returns null.
-/

set_option autoImplicit false

namespace TpccRunner.NoWait

open Lib
open Function (update)

/-- By its `rwt`; `rec` is null when that is `READ`. -/
inductive ReadWriteElement (R : Type) where
  | read
  | update (record : R)

/-- `upsert` of a key that was loaded does what `update` does. -/
inductive Operation where
  | read
  | update

/-- Where a transaction is: `fetch` between the lock and the record, `unlock` between
`exchange` and `unlock`. -/
inductive Pc (K : Type) where
  | running
  | fetch (key : K) (op : Operation)
  | unlockShared
  | write
  | unlock (key : K)
  | abort
  | finished

/-- The loops take the elements that they are done with out of `rws`.  `reads` records what the
transaction read from the table. -/
structure Tx (K R : Type) where
  rws : K → Option (ReadWriteElement R)
  pc : Pc K
  reads : List (K × R)

/-- `cnt` is that of `rwl`. -/
structure Value (R : Type) where
  cnt : Int
  record : R

structure State (n : Nat) (K R : Type) where
  value : K → Value R
  tx : Fin n → Tx K R
  log : List (Summary K R)

variable {n : Nat} {K R : Type}

@[simp]
def ReadWriteElement.own : ReadWriteElement R → Option R
  | .read => none
  | .update record => some record

/-- The record that the transaction leaves, if it updates the key. -/
@[simp]
def Tx.own (tx : Tx K R) (key : K) : Option R := (tx.rws key).bind ReadWriteElement.own

@[simp]
def Tx.summary (tx : Tx K R) : Summary K R := ⟨tx.reads, tx.own⟩

def Tx.new : Tx K R := ⟨fun _ => none, .running, []⟩

def start (loaded : K → R) : State n K R := ⟨fun key => ⟨0, loaded key⟩, fun _ => Tx.new, []⟩

inductive Action (K R : Type) where
  | begin
  | access (op : Operation) (key : K)
  | store (key : K) (record : R)
  | precommit
  | abort
  | visit (key : K)
  | next

def State.setTx (state : State n K R) (worker : Fin n) (tx : Tx K R) : State n K R :=
  { state with tx := update state.tx worker tx }

variable [DecidableEq K]

def State.setCnt (state : State n K R) (key : K) (cnt : Int) : State n K R :=
  { state with value := update state.value key { state.value key with cnt } }

/-- `try_lock_shared`, `try_lock` and `try_lock_upgrade`. -/
def State.tryLock (state : State n K R) (worker : Fin n) (op : Operation) (key : K)
    (mode : RWLock.Mode) : State n K R :=
  let cnt := (state.value key).cnt
  if mode.admits cnt then
    (state.setCnt key (mode.desired cnt)).setTx worker
      { state.tx worker with pc := .fetch key op }
  else state.setTx worker { state.tx worker with pc := .abort }

def State.access (state : State n K R) (worker : Fin n) (op : Operation) (key : K) :
    State n K R :=
  let tx := state.tx worker
  match tx.rws key, op with
  | none, .read => state.tryLock worker op key .shared
  | none, .update => state.tryLock worker op key .exclusive
  | some .read, .read =>
    state.setTx worker { tx with reads := (key, (state.value key).record) :: tx.reads }
  | some .read, .update => state.tryLock worker op key .upgrade
  | some (.update _), _ => state

def State.fetch (state : State n K R) (worker : Fin n) (op : Operation) (key : K) :
    State n K R :=
  let tx := state.tx worker
  let record := (state.value key).record
  let element := match op with | .read => .read | .update => .update record
  state.setTx worker ⟨update tx.rws key (some element), .running, (key, record) :: tx.reads⟩

def State.visit (state : State n K R) (worker : Fin n) (key : K) : Option (State n K R) :=
  let tx := state.tx worker
  let rest := { tx with rws := update tx.rws key none }
  let ⟨cnt, _⟩ := state.value key
  match tx.pc, tx.rws key with
  | .unlockShared, some .read => some ((state.setCnt key (cnt - 1)).setTx worker rest)
  | .write, some (.update record) =>
    some ({ state with value := update state.value key ⟨cnt, record⟩ }.setTx worker
      { rest with pc := .unlock key })
  | .abort, some .read => some ((state.setCnt key (cnt - 1)).setTx worker rest)
  | .abort, some (.update _) => some ((state.setCnt key (cnt + 1)).setTx worker rest)
  | _, _ => none

def step (state : State n K R) : Fin n × Action K R → Option (State n K R)
  | (worker, action) =>
    let tx := state.tx worker
    match action, tx.pc with
    | .begin, .finished => some (state.setTx worker Tx.new)
    | .access op key, .running => some (state.access worker op key)
    | .store key record, .running =>
      (tx.own key).map fun _ =>
        state.setTx worker { tx with rws := update tx.rws key (some (.update record)) }
    | .precommit, .running =>
      some { state.setTx worker { tx with pc := .unlockShared } with
        log := state.log ++ [tx.summary] }
    | .abort, .running => some (state.setTx worker { tx with pc := .abort })
    | .visit key, _ => state.visit worker key
    | .next, .fetch key op => some (state.fetch worker op key)
    | .next, .unlockShared => some (state.setTx worker { tx with pc := .write })
    | .next, .unlock key =>
      some ((state.setCnt key ((state.value key).cnt + 1)).setTx worker { tx with pc := .write })
    | .next, .write | .next, .abort => some (state.setTx worker { tx with pc := .finished })
    | _, _ => none

def Visited (state : State n K R) : Fin n × Action K R → Prop
  | (worker, .next) =>
    match (state.tx worker).pc with
    | .unlockShared => ∀ key, (state.tx worker).own key = none → (state.tx worker).rws key = none
    | .write | .abort => ∀ key, (state.tx worker).rws key = none
    | _ => True
  | _ => True

instance decidableVisited [Fintype K] (state : State n K R) (label : Fin n × Action K R) :
    Decidable (Visited state label) := by
  unfold Visited
  split
  · split <;> infer_instance
  · infer_instance

end TpccRunner.NoWait
