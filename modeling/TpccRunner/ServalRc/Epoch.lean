import TpccRunner.Lib.StepSystem
import TpccRunner.Utils.Workload
import TpccRunner.ServalRc.WriteBitmap

/-!
# One row over the epochs of Serval_RC

The driver `ycsb_serval_rc.cpp` seen from one row: in every epoch the workers
register the writes of the row, then its reads, and then run the transactions,
with a barrier between the phases.  A transaction has at most one read and one
update of the row.  A step is one call on the row or one access to a version;
which worker moves is arbitrary.

`startMaster`, `startVersion` and `identified` are history: the master at the
beginning of the epoch and the writers in the order in which they called
`identify_write_version`.
-/

set_option autoImplicit false

namespace TpccRunner.ServalRc

open TpccRunner.Utils TpccRunner.Lib

/-- What the transactions of an epoch do with the row. -/
structure RowWorkload where
  ops : Nat → List Ope
  distinct : ∀ serial, (ops serial).Nodup

inductive Phase where
  | write
  | read
  | exec
  deriving DecidableEq, Repr

/-- Where a worker stands.  The item of `loadRecord` and `decrement` is still the
first one of its list. -/
inductive Pc where
  | next
  /-- A reader that left the spin loop. -/
  | loadRecord (pointer : Nat)
  | decrement (record : Option Record)
  | returnRead (serial : Nat) (record : Option Record)
  /-- A writer that got a version to fill. -/
  | storeRecord (serial pointer : Nat)
  | storeStable (serial pointer : Nat)
  deriving DecidableEq, Repr

structure State where
  mem : Memory
  epoch : Nat := 0
  workload : RowWorkload := ⟨fun _ => [], by simp⟩
  phase : Phase := .exec
  todo : Worker → List (Item Ope) := fun _ => []
  pc : Worker → Pc := fun _ => .next
  /-- `Operation::pending_` of the read of a transaction. -/
  pending : Nat → Nat := fun _ => 0
  startMaster : Nat := 0
  startVersion : Version
  identified : List Nat := []

inductive Label where
  | worker (worker : Worker)
  | barrier
  | newEpoch (workload : RowWorkload)

namespace State

def loaded : State where
  mem := { row := { master := 0 }, versions := fun _ => ⟨some .loaded, .stable⟩, next := 1 }
  startVersion := ⟨some .loaded, .stable⟩

def writePhase (ops : Nat → List Ope) (worker : Worker) : List (Item Ope) :=
  (perTransaction ops (sequentialAssignment worker)).filter (·.op = .update)

def readPhase (ops : Nat → List Ope) (worker : Worker) : List (Item Ope) :=
  (perTransaction ops (sequentialAssignment worker)).filter (·.op = .read)

def executionPhase (ops : Nat → List Ope) (worker : Worker) : List (Item Ope) :=
  perTransaction ops (roundRobinAssignment worker)

def Quiet (state : State) : Prop := ∀ worker, state.todo worker = [] ∧ state.pc worker = .next

instance (state : State) : Decidable state.Quiet := inferInstanceAs (Decidable (∀ _, _))

def setPc (state : State) (worker : Worker) (pc : Pc) : State :=
  { state with pc := Function.update state.pc worker pc }

def setTodo (state : State) (worker : Worker) (rest : List (Item Ope)) : State :=
  { state with todo := Function.update state.todo worker rest }

def register (state : State) (worker : Worker) (item : Item Ope) (rest : List (Item Ope)) : State :=
  match state.phase with
  | .write =>
    { state.setTodo worker rest with
      mem := { state.mem with
        row := state.mem.row.updateBitmap item.turn.core (item.turn.serial % 64) } }
  | _ =>
    let (pointer, mem) := state.mem.appendPendingVersion item.turn.core (item.turn.serial % 64)
    { state.setTodo worker rest with
      mem, pending := Function.update state.pending item.turn.serial pointer }

def beginOperation (state : State) (worker : Worker) (item : Item Ope) (rest : List (Item Ope)) :
    Option State :=
  match item.op with
  | .read =>
    let pointer := state.pending item.turn.serial
    if (state.mem.versions pointer).status = .stable then
      some (state.setPc worker (.loadRecord pointer))
    else none
  | .update =>
    let (found, mem) := state.mem.identifyWriteVersion item.turn.core (item.turn.serial % 64)
    let state := { state.setTodo worker rest with
      mem, identified := state.identified ++ [item.turn.serial] }
    match found with
    | some pointer => some (state.setPc worker (.storeRecord item.turn.serial pointer))
    | none => some state

def workerStep (state : State) (worker : Worker) : Option State :=
  match state.pc worker, state.todo worker with
  | .next, [] => none
  | .next, item :: rest =>
    if state.phase = .exec then state.beginOperation worker item rest
    else some (state.register worker item rest)
  | .loadRecord pointer, _ =>
    some (state.setPc worker (.decrement (state.mem.versions pointer).record))
  | .decrement record, item :: rest =>
    some ({ state.setTodo worker rest with mem := state.mem.decrementRefCnt }.setPc worker
      (.returnRead item.turn.serial record))
  | .decrement _, [] => none
  | .returnRead _ _, _ => some (state.setPc worker .next)
  | .storeRecord serial pointer, _ =>
    let heap := state.mem.storeRecord pointer (.written state.epoch serial)
    some ({ state with mem := { state.mem with toHeap := heap } }.setPc worker
      (.storeStable serial pointer))
  | .storeStable _ pointer, _ =>
    let heap := state.mem.storeStable pointer
    some ({ state with mem := { state.mem with toHeap := heap } }.setPc worker .next)

def step (state : State) : Label → Option State
  | .worker worker => state.workerStep worker
  | .barrier =>
    if state.Quiet then
      match state.phase with
      | .write => some { state with phase := .read, todo := readPhase state.workload.ops }
      | .read => some { state with phase := .exec, todo := executionPhase state.workload.ops }
      | .exec => none
    else none
  | .newEpoch workload =>
    if state.phase = .exec ∧ state.Quiet then
      some { state with
        epoch := state.epoch + 1, workload, phase := .write, todo := writePhase workload.ops,
        startMaster := state.mem.row.master,
        startVersion := state.mem.versions state.mem.row.master, identified := [] }
    else none

def writers (state : State) : Set Nat :=
  {serial | serial < 4096 ∧ Ope.update ∈ state.workload.ops serial}

def readers (state : State) : Set Nat :=
  {serial | serial < 4096 ∧ Ope.read ∈ state.workload.ops serial}

def EpochEnd (state : State) : Prop := state.phase = .exec ∧ state.Quiet

/-- The master is the version of the writer with the largest serial id, or the
one it was when the epoch began. -/
def KeepsFinalWrite (state : State) : Prop :=
  (state.writers = ∅ → state.mem.row.master = state.startMaster ∧
    state.mem.versions state.mem.row.master = state.startVersion) ∧
  ∀ last, IsGreatest state.writers last →
    state.mem.versions state.mem.row.master = ⟨some (.written state.epoch last), .stable⟩

/-- Nobody writes the row, or somebody reads it after the last writer, or nobody
reads it and the last writer is the first one to run. -/
def FinalWriteReached (state : State) : Prop :=
  state.writers = ∅ ∨
  (∃ reader ∈ state.readers, ∀ writer ∈ state.writers, writer < reader) ∨
  (state.readers = ∅ ∧ ∃ first ∈ state.identified.head?, IsGreatest state.writers first)

end State

end TpccRunner.ServalRc
