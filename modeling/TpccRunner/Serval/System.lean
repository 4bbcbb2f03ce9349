import TpccRunner.Lib.StepSystem
import TpccRunner.Utils.Workers
import TpccRunner.Serval.RowHolds

/-!
# Serval over the epochs

The 64 workers of `ycsb_serval.cpp`.  In the initialization phase of an epoch
every update of the epoch appends a pending version to its row; in the execution
phase the transactions read and fill versions.  A step of a worker is one atomic
access to shared state: a load, a `try_lock`, the section a lock protects, an
append to the array of the worker's own core, or an access to a version.  The
barrier separates the phases.
-/

set_option autoImplicit false

namespace TpccRunner.Serval

open TpccRunner.Utils TpccRunner.Lib

inductive Pc where
  /-- `epoch_guard` loads the epoch, or an operation of the execution phase begins. -/
  | start
  | guardTryLock
  | guardLocked
  | guardUnlock
  | tryLock
  | locked
  /-- The version is appended, the row still locked. -/
  | unlock (key : Nat)
  /-- `wait_region_installation`. -/
  | waitLoad
  | waitTryLock
  | waitLocked
  | waitUnlock
  | contended
  /-- A reader spins on a version. -/
  | awaitStable (pointer : Nat)
  | loadRecord (pointer : Nat)
  | storeStable (pointer : Nat)
  deriving DecidableEq, Repr

structure RegionController where
  used : Nat := 0

abbrev State := Workers Value Pc RegionController

inductive Label where
  | worker (worker : Worker)
  | barrier
  | newEpoch
  deriving DecidableEq, Repr

def initializationPhase (load : Workload) (epoch : Nat) (worker : Worker) :
    List (Item Operation) :=
  load.updates sequentialAssignment epoch worker

def executionPhase (load : Workload) (epoch : Nat) (worker : Worker) : List (Item Operation) :=
  load.operations roundRobinAssignment epoch worker

namespace State

/-- `insert_into_index`: version 0 in the global array under id -1, version 1 as
the master, both with a loaded record. -/
def loadedRow : Value where
  master := 1
  globalArray := [(-1, 0)]
  heap := { versions := fun _ => ⟨some .loaded, .stable⟩, next := 2 }

def loaded : State where
  rows _ := loadedRow
  own := {}
  pc _ := .start

def Quiet (state : State) : Prop := ∀ worker, state.todo worker = [] ∧ state.pc worker = .start

instance (state : State) : Decidable state.Quiet := inferInstanceAs (Decidable (∀ _, _))

/-- `try_lock`, then `success`; `failure` if somebody holds the row. -/
def tryLockRow (state : State) (worker : Worker) (key : Nat) (success failure : Pc) : State :=
  if (state.rows key).locked then state.goto worker failure
  else (state.setRow key { state.rows key with locked := true }).goto worker success

def unlockRow (state : State) (worker : Worker) (key : Nat) (next : Pc) : State :=
  (state.setRow key { state.rows key with locked := false }).goto worker next

/-- One step of `append_pending_version`. -/
def initStep (state : State) (worker : Worker) (item : Item Operation)
    (rest : List (Item Operation)) : Pc → Option State
  | .start =>
    if (state.rows item.op.key).epoch < state.epoch then some (state.goto worker .guardTryLock)
    else some (state.goto worker .tryLock)
  | .guardTryLock => some (state.tryLockRow worker item.op.key .guardLocked .start)
  | .guardLocked =>
    let val := state.rows item.op.key
    if val.epoch < state.epoch then
      some ((state.setRow item.op.key (val.initializeTheRow state.epoch)).goto worker .guardUnlock)
    else some (state.goto worker .guardUnlock)
  | .guardUnlock => some (state.unlockRow worker item.op.key .tryLock)
  | .tryLock => some (state.tryLockRow worker item.op.key .locked .waitLoad)
  | .locked =>
    let val := state.rows item.op.key
    match val.rowRegion with
    | some region =>
      some (state.appended Value.heap worker item rest
        (val.appendToContendedRow region item.turn.core item.turn.serial)
        (.unlock item.op.key))
    | none =>
      some (state.appended Value.heap worker item rest (val.appendToUncontendedRow item.turn.serial)
        (.unlock item.op.key))
  | .waitLoad =>
    if (state.rows item.op.key).rowRegion.isSome then some (state.goto worker .contended)
    else some (state.goto worker .waitTryLock)
  | .waitTryLock => some (state.tryLockRow worker item.op.key .waitLocked .waitLoad)
  | .waitLocked =>
    let val := state.rows item.op.key
    if val.rowRegion.isSome then some (state.goto worker .waitUnlock)
    else if state.own.used < numRegions then
      some ({ state.setRow item.op.key val.installRegion with
        own.used := state.own.used + 1 }.goto worker .waitUnlock)
    else none  -- fetch_new_region throws
  | .waitUnlock => some (state.unlockRow worker item.op.key .contended)
  | .contended =>
    let val := state.rows item.op.key
    match val.rowRegion with
    | some region =>
      some (state.appended Value.heap worker item rest
        (val.appendToContendedRow region item.turn.core item.turn.serial) .start)
    | none => none
  | _ => none

/-- One step of `read` or `write`. -/
def execStep (state : State) (worker : Worker) (item : Item Operation)
    (rest : List (Item Operation)) : Pc → Option State
  | .start =>
    let val := state.rows item.op.key
    match item.op.ope with
    | .read =>
      match val.selectVersion state.epoch item.turn.core item.turn.serial with
      | some (pointer, true) => some (state.goto worker (.awaitStable pointer))
      | some (pointer, false) => some (state.goto worker (.loadRecord pointer))
      | none => some (state.returned worker item rest none .start)
    | .update =>
      match state.pending state.epoch item.turn.serial item.op.key with
      | some pointer =>
        let filled := val.storeRecord pointer (.written state.epoch item.turn.serial)
        some ((state.setRow item.op.key filled).goto worker (.storeStable pointer))
      | none => some (state.setTodo worker rest)
  | .awaitStable pointer =>
    if ((state.rows item.op.key).heap.versions pointer).status = .stable then
      some (state.goto worker (.loadRecord pointer))
    else none
  | .loadRecord pointer =>
    some (state.returned worker item rest
      ((state.rows item.op.key).heap.versions pointer).record .start)
  | .storeStable pointer =>
    let val := (state.rows item.op.key).storeStable pointer
    some (((state.setRow item.op.key val).setTodo worker rest).goto worker .start)
  | _ => none

def workerStep (state : State) (worker : Worker) : Option State :=
  match state.pc worker, state.todo worker with
  | .unlock key, _ => some (state.unlockRow worker key .start)
  | _, [] => none
  | pc, item :: rest =>
    match state.phase with
    | .init => state.initStep worker item rest pc
    | .exec => state.execStep worker item rest pc

def step (load : Workload) (state : State) : Label → Option State
  | .worker worker => state.workerStep worker
  | .barrier =>
    if state.phase = .init ∧ state.Quiet then
      some { state with phase := .exec, todo := executionPhase load state.epoch }
    else none
  | .newEpoch =>
    if state.phase = .exec ∧ state.Quiet then
      some { state with
        epoch := state.epoch + 1, phase := .init,
        todo := initializationPhase load (state.epoch + 1) }
    else none

end State

/-! ## When a read is right -/

/-- The key is written in the epoch of the read, or was never written before. -/
def Fresh (load : Workload) (event : ReadEvent) : Prop :=
  (load.writers event.key event.epoch).Nonempty ∨
    ∀ epoch, 1 ≤ epoch → epoch < event.epoch → load.writers event.key epoch = ∅

end TpccRunner.Serval
